/-! # Spans

Places in a source text, as ranges of byte offsets into its UTF-8 form. -/

namespace Shader

structure Span where
  start : Nat := 0
  stop : Nat := 0
  deriving DecidableEq, Repr, Inhabited

namespace Span

def cover (left right : Span) : Span :=
  ⟨min left.start right.start, max left.stop right.stop⟩

end Span

end Shader
