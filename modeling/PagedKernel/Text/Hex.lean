/-! Hexadecimal text. A machine word is written with all its eight upper-case
digits, so that addresses line up; a count is written in lower case without
leading zeros. -/

namespace PagedKernel.Text

def padLeft (width : Nat) (digits : List Char) : List Char :=
  List.replicate (width - digits.length) '0' ++ digits

theorem padLeft_length (width : Nat) (digits : List Char) :
    (padLeft width digits).length = max width digits.length := by
  simp only [padLeft, List.length_append, List.length_replicate]
  omega

def hexWord (word : UInt32) : String :=
  "0x" ++ String.ofList (padLeft 8 ((Nat.toDigits 16 word.toNat).map Char.toUpper))

def hexShort (n : Nat) : String :=
  "0x" ++ String.ofList (Nat.toDigits 16 n)

end PagedKernel.Text
