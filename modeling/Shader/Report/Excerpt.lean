import Shader.Diagnostic.Basic
import Shader.Report.SourceLine

/-! # Excerpts

An excerpt shows a place of a source: the lines that it is on and some lines around them. Each line
says which of its characters belong to the place. -/

namespace Shader

structure Row where
  number : Nat
  isMarked : Bool
  before : List Char
  marked : List Char
  after : List Char
  deriving DecidableEq, Repr

def Row.text (row : Row) : List Char :=
  row.before ++ row.marked ++ row.after

structure Excerpt where
  line : Nat
  column : Nat
  rows : List Row
  deriving DecidableEq, Repr

def Excerpt.gutter (excerpt : Excerpt) : Nat :=
  match excerpt.rows.getLast? with
  | some row => (toString row.number).length
  | none => 0

/-- The line with an index as a line of an excerpt. The place goes from one offset to another and is on
the lines with indices from `first` to `last`. -/
def rowOf (line : SourceLine) (index first last start stop : Nat) : Row :=
  let markStart := max start line.start
  let markStop := min stop line.stop
  if first ≤ index ∧ index ≤ last ∧ markStart ≤ markStop then
    let rest := dropBytes (markStart - line.start) line.text
    { number := index + 1
      isMarked := true
      before := takeBytes (markStart - line.start) line.text
      marked := takeBytes (markStop - markStart) rest
      after := dropBytes (markStop - markStart) rest }
  else
    { number := index + 1, isMarked := false, before := line.text, marked := [], after := [] }

def excerpt (source : String) (span : Span) (contextLines : Nat) : Excerpt :=
  let lines := sourceLines source
  let size := source.utf8ByteSize
  let start := min span.start size
  let stop := max start (min span.stop size)
  let first := lineIndex lines start
  let last := lineIndex lines (max (stop - 1) start)
  let shown := (lines.zipIdx.drop (first - contextLines)).take
    (last + contextLines + 1 - (first - contextLines))
  let (line, column) := lineColumn source start
  { line
    column
    rows := shown.map fun (line, index) => rowOf line index first last start stop }

end Shader
