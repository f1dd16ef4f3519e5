import Shader.Report.Excerpt

/-! # Rendering diagnostics

The report of a diagnostic names its contexts and its message and shows an excerpt for each of its
places. Without colors a row of carets stands under every line of a place; with colors the place itself
is painted. -/

namespace Shader

structure ReportOptions where
  contextLines : Nat := 2
  color : Bool := true
  deriving DecidableEq, Repr, Inhabited

/-! ## Colors -/

def resetCode : String := "\x1b[0m"

def boldCode : String := resetCode ++ "\x1b[1m"

def SiteColor.paintCode : SiteColor → String
  | .red => boldCode ++ "\x1b[31m"
  | .green => boldCode ++ "\x1b[32m"
  | .yellow => boldCode ++ "\x1b[33m"
  | .cyan => boldCode ++ "\x1b[36m"

/-! ## Lines -/

def blanks (count : Nat) : String :=
  String.ofList (List.replicate count ' ')

def carets (count : Nat) : String :=
  String.ofList (List.replicate count '^')

def alignRight (width : Nat) (text : String) : String :=
  blanks (width - text.length) ++ text

def gutterText (gutter : Nat) (text : String) : String :=
  alignRight gutter text ++ " | "

namespace Row

def plainLine (gutter : Nat) (row : Row) : String :=
  gutterText gutter (toString row.number) ++ String.ofList row.text

def caretLine (gutter : Nat) (row : Row) : String :=
  gutterText gutter "" ++ blanks row.before.length ++ carets (max row.marked.length 1)

def plainLines (gutter : Nat) (row : Row) : List String :=
  if row.isMarked then [row.plainLine gutter, row.caretLine gutter] else [row.plainLine gutter]

def paintedLine (gutter : Nat) (color : SiteColor) (row : Row) : String :=
  if row.isMarked then
    gutterText gutter (toString row.number) ++ String.ofList row.before ++ color.paintCode ++
      String.ofList row.marked ++ resetCode ++ String.ofList row.after
  else row.plainLine gutter

end Row

def siteLines (source : String) (options : ReportOptions) (site : Site) : List String :=
  let shown := excerpt source site.span options.contextLines
  let gutter := shown.gutter
  let rows :=
    if options.color then shown.rows.map (Row.paintedLine gutter site.color)
    else shown.rows.flatMap (Row.plainLines gutter)
  s!"  --> {shown.line}:{shown.column}" :: rows

def messageLine (options : ReportOptions) (diagnostic : Diagnostic) : String :=
  if options.color then boldCode ++ diagnostic.rootText ++ resetCode else diagnostic.rootText

def joinLines (lines : List String) : String :=
  String.join (lines.map fun line => line ++ "\n")

def render (source : String) (diagnostic : Diagnostic) (options : ReportOptions) : String :=
  joinLines (diagnostic.context ++ [messageLine options diagnostic] ++
    diagnostic.sites.flatMap (siteLines source options))

/-! ## Labels -/

structure Label where
  isPrimary : Bool
  span : Span
  deriving DecidableEq, Repr

def Diagnostic.labels (diagnostic : Diagnostic) : List Label :=
  diagnostic.sites.map fun site => ⟨site.color == .red, site.span⟩

/-! ## Compact reports -/

/-- The lines that point at a place of a source with a path, behind a margin. -/
def locationLines (source path : String) (span : Span) : List String :=
  let (line, column) := lineColumn source span.start
  let number := toString line
  let margin := blanks number.length
  let text := ((sourceLines source)[line - 1]?.getD default).text
  [margin ++ s!" ┌─ {path}:{line}:{column}", margin ++ " │", number ++ " │ " ++ String.ofList text,
    margin ++ " │ " ++ blanks (column - 1) ++ carets (max (span.stop - span.start) 1)]

def noteLines (margin : String) (context : List String) : List String :=
  context.map fun note => margin ++ " = " ++ note

/-- A report with the path of the source, which points at the primary place. The place is on one
line. -/
def renderCompact (source path : String) (diagnostic : Diagnostic) : String :=
  let head := "error: " ++ diagnostic.rootText
  match diagnostic.primary? with
  | none => joinLines ([head] ++ noteLines "" diagnostic.context ++ [""])
  | some span =>
    let margin := blanks (toString (lineColumn source span.start).1).length
    let divider := if diagnostic.context.isEmpty then [] else [margin ++ " │"]
    joinLines ([head] ++ locationLines source path span ++ divider ++
      noteLines margin diagnostic.context ++ [""])

end Shader
