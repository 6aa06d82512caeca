import PagedKernel.Io.Backend

/-! A mapper that maps nothing: it hands out bases at fixed distances and keeps a
ledger of what is lent. It can be told to refuse. -/

namespace PagedKernel.LedgerMapper

inductive MapperCall where
  | lend (user : VirtualAddress) (length : Nat)
  | takeBack (kernel : VirtualAddress) (length : Nat)

structure State where
  base : VirtualAddress
  /-- What is lent at the moment, oldest first. -/
  live : List (VirtualAddress × Nat)
  /-- Why lending is refused, given the user address. -/
  refusal : Option (VirtualAddress → AliasError)
  keepsAll : Bool
  calls : Array MapperCall

def stride : UInt32 := 1048576

def State.initial : State :=
  ⟨.ofBits 3221225472, [], none, false, #[]⟩

def State.clearCalls (s : State) : State :=
  { s with calls := #[] }

def lend (user : VirtualAddress) (length : Nat) (s : State) :
    Except AliasError VirtualAddress × State :=
  let s := { s with calls := s.calls.push (.lend user length) }
  match s.refusal with
  | some refusal => (.error (refusal user), s)
  | none =>
    (.ok s.base,
      { s with base := .ofBits (s.base.bits + stride), live := s.live ++ [(s.base, length)] })

def takeBack (kernel : VirtualAddress) (length : Nat) (s : State) :
    Except AliasError Unit × State :=
  let s := { s with calls := s.calls.push (.takeBack kernel length) }
  if !s.keepsAll && s.live.contains (kernel, length) then
    (.ok (), { s with live := s.live.erase (kernel, length) })
  else (.error (.notMapped kernel), s)

def mapper : AliasMapper State where
  lend user length := ExceptT.mk (Op.update (lend user length))
  takeBack kernel length := ExceptT.mk (Op.update (takeBack kernel length))

end PagedKernel.LedgerMapper
