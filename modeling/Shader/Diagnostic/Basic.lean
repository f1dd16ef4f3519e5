import Shader.Diagnostic.Cause
import Shader.Span

/-! # Diagnostics

A `Diagnostic` is an error as it is shown to the author of a source: the stage that found it, a
message, the places it is about, and the contexts it was found in. -/

namespace Shader

inductive Stage where
  | lexing
  | parsing
  | typing
  | lowering
  | emission
  | internal
  deriving DecidableEq, Repr

def Stage.title : Stage → String
  | .lexing => "Lex error"
  | .parsing => "Syntax error"
  | .typing => "Type error"
  | .lowering => "SSA error"
  | .emission => "SPIR-V generation error"
  | .internal => "Internal error"

inductive SiteColor where
  | red
  | green
  | cyan
  | yellow
  deriving DecidableEq, Repr

structure Site where
  span : Span
  color : SiteColor
  deriving DecidableEq, Repr

namespace Site

def red (span : Span) : Site := ⟨span, .red⟩

def green (span : Span) : Site := ⟨span, .green⟩

def cyan (span : Span) : Site := ⟨span, .cyan⟩

end Site

inductive Cause where
  | lexical (cause : LexicalCause)
  | grammar (cause : GrammarCause)
  | typing (cause : TypingCause)
  | lowering (cause : LoweringCause)
  | emission (cause : EmissionCause)
  | exhausted
  | stated (stage : Stage) (message : String)
  deriving DecidableEq, Repr

namespace Cause

def stage : Cause → Stage
  | .lexical _ => .lexing
  | .grammar _ => .parsing
  | .typing _ => .typing
  | .lowering _ => .lowering
  | .emission _ => .emission
  | .exhausted => .internal
  | .stated stage _ => stage

def message : Cause → String
  | .lexical cause => cause.message
  | .grammar cause => cause.message
  | .typing cause => cause.message
  | .lowering cause => cause.message
  | .emission cause => cause.message
  | .exhausted => "Recursion limit reached"
  | .stated _ message => message

end Cause

structure Diagnostic where
  cause : Cause
  sites : List Site := []
  context : List String := []
  deriving DecidableEq, Repr

namespace Diagnostic

def lexicalAt (span : Span) (cause : LexicalCause) : Diagnostic :=
  ⟨.lexical cause, [.red span], []⟩

def grammarAt (span : Span) (cause : GrammarCause) : Diagnostic :=
  ⟨.grammar cause, [.red span], []⟩

def typingWith (sites : List Site) (cause : TypingCause) : Diagnostic :=
  ⟨.typing cause, sites, []⟩

def typingAt (span : Span) (cause : TypingCause) : Diagnostic :=
  typingWith [.red span] cause

def clash (earlier current : Span) (cause : TypingCause) : Diagnostic :=
  typingWith [.green earlier, .red current] cause

def loweringAt (span : Span) (cause : LoweringCause) : Diagnostic :=
  ⟨.lowering cause, [.red span], []⟩

def emissionOf (cause : EmissionCause) : Diagnostic :=
  ⟨.emission cause, [], []⟩

def emissionAt (span : Span) (cause : EmissionCause) : Diagnostic :=
  ⟨.emission cause, [.red span], []⟩

def stage (diagnostic : Diagnostic) : Stage :=
  diagnostic.cause.stage

def message (diagnostic : Diagnostic) : String :=
  diagnostic.cause.message

def rootText (diagnostic : Diagnostic) : String :=
  diagnostic.stage.title ++ ": " ++ diagnostic.message

def text (diagnostic : Diagnostic) : String :=
  diagnostic.context.headD diagnostic.rootText

def primary? (diagnostic : Diagnostic) : Option Span :=
  ((diagnostic.sites.find? fun site => site.color == .red).or diagnostic.sites.head?).map Site.span

def within (diagnostic : Diagnostic) (outer : String) : Diagnostic :=
  { diagnostic with context := outer :: diagnostic.context }

@[simp] theorem sites_within (diagnostic : Diagnostic) (outer : String) :
    (diagnostic.within outer).sites = diagnostic.sites := rfl

@[simp] theorem primary?_within (diagnostic : Diagnostic) (outer : String) :
    (diagnostic.within outer).primary? = diagnostic.primary? := rfl

@[simp] theorem text_within (diagnostic : Diagnostic) (outer : String) :
    (diagnostic.within outer).text = outer := rfl

end Diagnostic

end Shader
