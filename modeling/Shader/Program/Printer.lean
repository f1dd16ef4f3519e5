import Shader.Program.Basic

/-! # Printing programs

A program as a source text: every compound expression stands in parentheses and every branch and loop
body in braces, so that the text says the same under any precedence. -/

namespace Shader

structure Line where
  level : Nat
  content : String
  deriving DecidableEq, Repr

def Line.text (line : Line) : String :=
  String.ofList (List.replicate (4 * line.level) ' ') ++ line.content ++ "\n"

def AttributeKind.text (kind : AttributeKind) : String :=
  let arguments :=
    if kind.arguments.isEmpty then ""
    else "(" ++ String.intercalate ", " (kind.arguments.map fun word => toString word.toNat) ++ ")"
  "[[" ++ kind.name ++ arguments ++ "]]"

def attributesText (attributes : List Attribute) : String :=
  String.join (attributes.map fun attr => " " ++ attr.kind.text)

def componentLetter (component : Nat) : Char :=
  match component % 4 with
  | 0 => 'x'
  | 1 => 'y'
  | 2 => 'z'
  | _ => 'w'

namespace Program

def memberName (program : Program) (base : TypeId) (index : Nat) : String :=
  match (program.members ((program.pointee? base).getD base))[index]? with
  | some member => member.name
  | none => "?"

def exprTextWithin (program : Program) : Nat → ExprId → String
  | 0, _ => ""
  | depth + 1, expr =>
    let text := program.exprTextWithin depth
    let list (arguments : List ExprId) : String := String.intercalate ", " (arguments.map text)
    match (program.expr expr).kind with
    | .literal value => value.text
    | .binary op _ left right =>
      if op == .comma then "(" ++ text left ++ ", " ++ text right ++ ")"
      else "(" ++ text left ++ " " ++ op.token ++ " " ++ text right ++ ")"
    | .unary op operand =>
      if op.isTrailing then "(" ++ text operand ++ op.token ++ ")"
      else "(" ++ op.token ++ text operand ++ ")"
    | .deref pointer => "(*" ++ text pointer ++ ")"
    | .ternary condition onTrue onFalse =>
      "(" ++ text condition ++ " ? " ++ text onTrue ++ " : " ++ text onFalse ++ ")"
    | .var var => (program.var var).name
    | .member base index =>
      text base ++ "." ++ program.memberName (program.expr base).type index
    | .swizzle base components =>
      text base ++ "." ++ String.ofList (components.map componentLetter)
    | .index base position => text base ++ "[" ++ text position ++ "]"
    | .call function arguments => (program.function function).name ++ "(" ++ list arguments ++ ")"
    | .structInit type arguments => program.typeName type ++ "(" ++ list arguments ++ ")"

/-- An expression as it is written. No expression is nested deeper than there are expressions. -/
def exprText (program : Program) (expr : ExprId) : String :=
  program.exprTextWithin program.exprs.size expr

def optionText (program : Program) (expr : Option ExprId) : String :=
  (expr.map program.exprText).getD ""

def initText (program : Program) : Option ExprId → String
  | some init => " = " ++ program.exprText init
  | none => ""

def isIf (program : Program) (stmt : StmtId) : Bool :=
  match (program.stmt stmt).kind with
  | .ifElse _ _ _ => true
  | _ => false

/-- The lines of a statement that is nested less than `depth` deep. A branch that continues another
one has `lead` before its first line. -/
def stmtLinesWithin (program : Program) : Nat → Nat → String → StmtId → List Line
  | 0, _, _, _ => []
  | depth + 1, level, lead, stmt =>
    match (program.stmt stmt).kind with
    | .expr expr => [⟨level, program.exprText expr ++ ";"⟩]
    | .varDecl [] _ => []
    | .varDecl (first :: rest) init =>
      let names := (first :: rest).map fun var => (program.var var).name
      [⟨level, program.typeName (program.var first).type ++ " " ++ String.intercalate ", " names ++
        program.initText init ++ ";"⟩]
    | .block stmts =>
      ⟨level, "\x7b"⟩ :: (stmts.flatMap (program.stmtLinesWithin depth (level + 1) "") ++ [⟨level, "\x7d"⟩])
    | .ifElse condition onTrue onFalse =>
      let first : Line := ⟨level, lead ++ "if (" ++ program.exprText condition ++ ")"⟩
      let otherwise :=
        match onFalse with
        | none => []
        | some branch =>
          if program.isIf branch then program.stmtLinesWithin depth level "else " branch
          else ⟨level, "else"⟩ :: program.stmtLinesWithin depth level "" branch
      first :: (program.stmtLinesWithin depth level "" onTrue ++ otherwise)
    | .forLoop init condition step body =>
      ⟨level, "for (" ++ program.optionText init ++ "; " ++ program.optionText condition ++ "; " ++
        program.optionText step ++ ")"⟩ :: program.stmtLinesWithin depth level "" body
    | .returnStmt (some value) => [⟨level, "return " ++ program.exprText value ++ ";"⟩]
    | .returnStmt none => [⟨level, "return;"⟩]

/-- The lines of a statement. No statement is nested deeper than there are statements. -/
def stmtLines (program : Program) (level : Nat) (stmt : StmtId) : List Line :=
  program.stmtLinesWithin program.stmts.size level "" stmt

def memberLine (program : Program) (member : Member) : Line :=
  ⟨1, program.typeName member.type ++ " " ++ member.name ++ program.initText member.init ++
    attributesText member.attributes ++ ";"⟩

def headerText (program : Program) (function : Function) : String :=
  let arguments := function.arguments.map fun argument =>
    let var := program.var argument
    program.typeName var.type ++ " " ++ var.name ++ attributesText var.attributes
  let attributes := function.attributes.map fun attr => attr.kind.text ++ " "
  String.join attributes ++ program.typeName function.returnType ++ " " ++ function.name ++ "(" ++
    String.intercalate ", " arguments ++ ")"

def functionLines (program : Program) (function : Function) : List Line :=
  match function.body with
  | none => [⟨0, program.headerText function ++ ";"⟩]
  | some body => ⟨0, program.headerText function⟩ :: program.stmtLines 0 body

def declarationLines (program : Program) : Declaration → List Line
  | .struct type =>
    ⟨0, "struct " ++ program.typeName type ++ " \x7b"⟩ ::
      ((program.members type).map program.memberLine ++ [⟨0, "\x7d"⟩])
  | .function function => program.functionLines (program.function function)
  | .globals stmt => program.stmtLines 0 stmt

def printed (program : Program) : String :=
  String.join ((program.declarations.flatMap program.declarationLines).map Line.text)

end Program

end Shader
