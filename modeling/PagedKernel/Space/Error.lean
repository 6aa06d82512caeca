import PagedKernel.Address.Virtual
import PagedKernel.FramePool.Basic

/-! Why paging requests are refused: errors of a single address space, of
lending a buffer from one space to another, and of mapping whole ranges. -/

namespace PagedKernel

inductive PagingError where
  | notPresent (page : Nat)
  | alreadyMapped (address : VirtualAddress)
  | nullPage
  | outOfFrames
  | outOfRange (start count : Nat)
  | frame (cause : FrameError)
  deriving DecidableEq

namespace PagingError

def ofBitmap (e : BitmapError) : PagingError :=
  .outOfRange e.start e.count

def message : PagingError → String
  | notPresent page => "page " ++ Text.hexShort page ++ " is not mapped"
  | alreadyMapped address => s!"{address} is already mapped"
  | nullPage => "virtual page 0 cannot be mapped"
  | outOfFrames => "out of physical frames for paging structures"
  | outOfRange start count =>
    "page range " ++ Text.hexShort start ++ s!"+{count} is outside the address space"
  | frame cause => cause.message

instance : ToString PagingError := ⟨message⟩

def kind : PagingError → String
  | notPresent _ => "NotPresent"
  | alreadyMapped _ => "AlreadyMapped"
  | nullPage => "NullPage"
  | outOfFrames => "OutOfFrames"
  | outOfRange .. => "OutOfRange"
  | frame cause => "Frame." ++ cause.kind

instance : Refusal PagingError where
  kind := kind
  message := message
  debug
    | notPresent page => Text.tuple "NotPresent" [debug page]
    | alreadyMapped address => Text.tuple "AlreadyMapped" [debug address]
    | nullPage => "NullPage"
    | outOfFrames => "OutOfFrames"
    | outOfRange start count =>
      Text.record "OutOfRange" [("start", debug start), ("count", debug count)]
    | frame cause => Text.tuple "Frame" [debug cause]

end PagingError

inductive AliasError where
  | notMapped (address : VirtualAddress)
  | outOfVirtualSpace (pages : Nat)
  | noSourceSpace
  | empty
  | paging (cause : PagingError)
  deriving DecidableEq

namespace AliasError

def message : AliasError → String
  | notMapped address => s!"user address {address} is not mapped"
  | outOfVirtualSpace pages => s!"no contiguous kernel virtual range of {pages} pages"
  | noSourceSpace => "no source address space to alias from"
  | empty => "empty alias request"
  | paging cause => cause.message

instance : ToString AliasError := ⟨message⟩

def kind : AliasError → String
  | notMapped _ => "NotMapped"
  | outOfVirtualSpace _ => "OutOfVirtualSpace"
  | noSourceSpace => "NoSourceSpace"
  | empty => "Empty"
  | paging cause => "Paging." ++ cause.kind

instance : Refusal AliasError where
  kind := kind
  message := message
  debug
    | notMapped address => Text.tuple "NotMapped" [debug address]
    | outOfVirtualSpace pages => Text.record "OutOfVirtualSpace" [("pages", debug pages)]
    | noSourceSpace => "NoSourceSpace"
    | empty => "Empty"
    | paging cause => Text.tuple "Paging" [debug cause]

end AliasError

inductive MappingError where
  | outOfVirtualSpace (pages : Nat)
  | outOfMemory
  | invalidRange
  | paging (cause : PagingError)
  deriving DecidableEq

namespace MappingError

/-- Missing frames for paging structures count as missing memory. -/
def ofPaging : PagingError → MappingError
  | .outOfFrames => outOfMemory
  | cause => paging cause

def message : MappingError → String
  | outOfVirtualSpace pages => s!"no contiguous virtual range of {pages} pages"
  | outOfMemory => "out of memory"
  | invalidRange => "invalid range"
  | paging cause => cause.message

instance : ToString MappingError := ⟨message⟩

def kind : MappingError → String
  | outOfVirtualSpace _ => "OutOfVirtualSpace"
  | outOfMemory => "OutOfMemory"
  | invalidRange => "InvalidRange"
  | paging cause => "Paging." ++ cause.kind

instance : Refusal MappingError where
  kind := kind
  message := message
  debug
    | outOfVirtualSpace pages => Text.record "OutOfVirtualSpace" [("pages", debug pages)]
    | outOfMemory => "OutOfMemory"
    | invalidRange => "InvalidRange"
    | paging cause => Text.tuple "Paging" [debug cause]

end MappingError
end PagedKernel
