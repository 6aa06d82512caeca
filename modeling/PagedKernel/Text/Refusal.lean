import PagedKernel.Text.Debug

/-! Errors as answers. Every error type can name its cause and put it into
words. -/

namespace PagedKernel

/-- Errors a request can be refused with. `kind` names the cause by the path to
it, the outermost layer first; `message` is the sentence a user reads. -/
class Refusal (ε : Type) extends Debug ε where
  kind : ε → String
  message : ε → String

end PagedKernel
