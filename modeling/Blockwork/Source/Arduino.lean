import Blockwork.Json.Printer
import Blockwork.Source.Identifier
import Blockwork.Source.Layout
import Blockwork.Source.Literal
import Blockwork.Source.Target

/-! # Arduino sources

A program becomes a sketch: its variables are declared, and its statements run once.
-/

namespace Blockwork.Arduino

open Source (Failure Names Options numberLiteral quote wholeValue?)

set_option autoImplicit false

/-- The words that no variable may have: those of the language, and those that sketches use. -/
def reserved : List String :=
  ["auto", "bool", "break", "case", "char", "class", "const", "continue", "default", "delete",
   "do", "double", "else", "enum", "false", "float", "for", "goto", "if", "int", "long", "new",
   "return", "short", "signed", "sizeof", "static", "struct", "switch", "this", "true",
   "unsigned", "void", "while", "and", "or", "not", "String", "Serial", "setup", "loop",
   "delay", "pow", "sqrt", "fabs", "log", "log10", "exp", "std"]

abbrev Writing := Except Failure

/-! ## Types -/

def typeName (blockId : String) : Ty → Writing String
  | .number => .ok "double"
  | .boolean => .ok "bool"
  | .text => .ok "String"
  | .list (.list _) => .error (.unsupported .arduino .nestedLists blockId)
  | .list element => do
    let name ← typeName blockId element
    return "std::vector<" ++ name ++ ">"
  | .captured => .error (.unresolved (.unresolved .captured blockId))

def var (names : Names) (v : Var) : Writing String := do
  let _ ← typeName v.attrs.id v.type
  return names.get v.name

/-! ## Expressions -/

def sign : BinaryOp → String
  | .add => "+"
  | .minus => "-"
  | .multiply => "*"
  | .divide => "/"
  | .power => "pow"
  | .eq => "=="
  | .neq => "!="
  | .lt => "<"
  | .lte => "<="
  | .gt => ">"
  | .gte => ">="
  | .and => "&&"
  | .or => "||"

def parens (text : String) : String :=
  "(" ++ text ++ ")"

/-- Parentheses around an operand with two operands; a power is a call and needs none. -/
def grouped : Expr → String → String
  | .binary op .., text => if op = .power then text else parens text
  | _, text => text

def isWhole (text : String) : Bool :=
  (text.toList.dropWhile (· = '-')).all Text.isDigit

/-- An operand of a division. Integers are widened, so that the quotient is not cut off. -/
def dividend (e : Expr) (text : String) : String :=
  match e with
  | .number .. => if isWhole text then text ++ ".0" else text
  | .length .. => "(double) " ++ grouped e text
  | _ => grouped e text

/-- An operand behind a sign. Two minus signs in a row would be read as one sign. -/
def signed (e : Expr) (text : String) : String :=
  match e with
  | .unary .. => parens text
  | _ =>
    let text := grouped e text
    if text.toList.head? == some '-' then parens text else text

def binary (op : BinaryOp) (left right : Expr) (leftText rightText : String) : String :=
  match op with
  | .power => "pow(" ++ leftText ++ ", " ++ rightText ++ ")"
  | .divide => dividend left leftText ++ " / " ++ dividend right rightText
  | op => grouped left leftText ++ " " ++ sign op ++ " " ++ grouped right rightText

def unary (op : UnaryOp) (operand : Expr) (text : String) : String :=
  match op with
  | .not => "!" ++ signed operand text
  | .neg => "-" ++ signed operand text
  | .root => "sqrt(" ++ text ++ ")"
  | .abs => "fabs(" ++ text ++ ")"
  | .ln => "log(" ++ text ++ ")"
  | .log10 => "log10(" ++ text ++ ")"
  | .exp => "exp(" ++ text ++ ")"
  | .pow10 => "pow(10, " ++ text ++ ")"

def joined : Expr → String → String
  | .text .., text => text
  | _, text => "String(" ++ text ++ ")"

def sum (items : List String) : String :=
  if items.isEmpty then "String(\"\")" else " + ".intercalate items

mutual

def expr (names : Names) : Expr → Writing String
  | .var v => var names v
  | .number literal value _ => .ok (numberLiteral literal value)
  | .boolean value _ => .ok (Json.boolText value)
  | .text value _ => .ok ("String(" ++ quote value ++ ")")
  | .binary op left right _ => do
    let leftText ← expr names left
    let rightText ← expr names right
    return binary op left right leftText rightText
  | .unary op operand _ => do
    let text ← expr names operand
    return unary op operand text
  | .list element items attrs => do
    let name ← typeName attrs.id element
    let texts ← exprs names items
    return "std::vector<" ++ name ++ ">\x7b" ++ ", ".intercalate texts ++ "\x7d"
  | .length operand _ => do
    let text ← expr names operand
    return text ++ ".size()"
  | .join items _ => do
    let texts ← joinedItems names items
    return sum texts

def exprs (names : Names) : List Expr → Writing (List String)
  | [] => .ok []
  | e :: rest => do
    let text ← expr names e
    let others ← exprs names rest
    return text :: others

def joinedItems (names : Names) : List Expr → Writing (List String)
  | [] => .ok []
  | e :: rest => do
    let text ← expr names e
    let others ← joinedItems names rest
    return joined e text :: others

end

/-! ## Statements -/

/-- Whether a counting loop counts down: both bounds are integer literals, the first above the last. -/
def countsDown (first last : Expr) : Bool :=
  match first, last with
  | .number _ a _, .number _ b _ =>
    match wholeValue? a, wholeValue? b with
    | some m, some n => n < m
    | _, _ => false
  | _, _ => false

def countHeader (down : Bool) (counter first last step : String) : String :=
  let (test, move) := if down then (" >= ", " -= ") else (" <= ", " += ")
  "for (" ++ counter ++ " = " ++ first ++ "; " ++ counter ++ test ++ last ++ "; " ++ counter ++ move
    ++ step ++ ")"

def loopHeader (mode : LoopMode) (condition : String) : String :=
  match mode with
  | .while => "while (" ++ condition ++ ")"
  | .until => "while (!(" ++ condition ++ "))"

def flowWord : Flow → String
  | .break => "break;"
  | .continue => "continue;"

def remarks (depth : Nat) (attrs : Attributes) : List Line :=
  Line.remarks "//" depth attrs.comment

def headed (depth : Nat) (header : String) (body : List Line) : List Line :=
  { depth, text := header ++ " \x7b" } :: body

def closing (depth : Nat) : Line :=
  { depth, text := "\x7d" }

def braced (depth : Nat) (header : String) (body : List Line) : List Line :=
  headed depth header body ++ [closing depth]

mutual

def lines (names : Names) (depth : Nat) : Stmt → Writing (List Line)
  | .assign target value attrs => do
    let name ← var names target
    let text ← expr names value
    return remarks depth attrs ++ [{ depth, text := name ++ " = " ++ text ++ ";" }]
  | .choose branches otherwise attrs => do
    let body ← linesOfBranches names depth "if (" branches
    let last ← linesOfOtherwise names depth otherwise
    return remarks depth attrs ++ body ++ last ++ [closing depth]
  | .repeat times body attrs => do
    let text ← expr names times
    let counter := "_k" ++ Text.natText depth
    let inner ← linesOf names (depth + 1) body
    return remarks depth attrs
      ++ braced depth ("for (int " ++ counter ++ " = 0; " ++ counter ++ " < " ++ text ++ "; " ++ counter
        ++ "++)") inner
  | .loop mode condition body attrs => do
    let text ← expr names condition
    let inner ← linesOf names (depth + 1) body
    return remarks depth attrs ++ braced depth (loopHeader mode text) inner
  | .count counter first last step body attrs => do
    let name ← var names counter
    let firstText ← expr names first
    let lastText ← expr names last
    let stepText ← expr names step
    let inner ← linesOf names (depth + 1) body
    return remarks depth attrs
      ++ braced depth
        (countHeader (countsDown first last) name firstText lastText (grouped step stepText)) inner
  | .forEach item list body attrs => do
    let name ← var names item
    let type ← typeName attrs.id item.type
    let text ← expr names list
    let element := "_item" ++ Text.natText depth
    let inner ← linesOf names (depth + 1) body
    return remarks depth attrs
      ++ braced depth ("for (" ++ type ++ " " ++ element ++ " : " ++ text ++ ")")
        ({ depth := depth + 1, text := name ++ " = " ++ element ++ ";" } :: inner)
  | .flow choice attrs => .ok (remarks depth attrs ++ [{ depth, text := flowWord choice }])
  | .wait time attrs => do
    let text ← expr names time
    return remarks depth attrs ++ [{ depth, text := "delay(" ++ text ++ ");" }]
  | .print text attrs => do
    let text ← expr names text
    return remarks depth attrs ++ [{ depth, text := "Serial.println(" ++ text ++ ");" }]

/-- The lines of branches without the last closing brace; each further branch closes the one before. -/
def linesOfBranches (names : Names) (depth : Nat) (word : String) :
    List (Expr × List Stmt) → Writing (List Line)
  | [] => .ok []
  | (condition, body) :: rest => do
    let text ← expr names condition
    let inner ← linesOf names (depth + 1) body
    let others ← linesOfBranches names depth "\x7d else if (" rest
    return headed depth (word ++ text ++ ")") inner ++ others

def linesOfOtherwise (names : Names) (depth : Nat) : Option (List Stmt) → Writing (List Line)
  | none => .ok []
  | some body => do
    let inner ← linesOf names (depth + 1) body
    return headed depth "\x7d else" inner

def linesOf (names : Names) (depth : Nat) : List Stmt → Writing (List Line)
  | [] => .ok []
  | s :: rest => do
    let first ← lines names depth s
    let others ← linesOf names depth rest
    return first ++ others

end

/-! ## Programs -/

def rootLines (names : Names) : Root → Writing (List Line)
  | .statements body => linesOf names 1 body
  | .value e => .error (.unsupported .arduino .floatingExpression e.id)

def declaration (names : Names) (v : Var) : Writing Line := do
  let type ← typeName v.attrs.id v.type
  return { depth := 0, text := type ++ " " ++ names.get v.name ++ ";" }

def isList : Expr → Bool
  | .list .. => true
  | _ => false

def usesVector (roots : List Root) (vars : List Var) : Bool :=
  (roots.any fun r => r.exprs.any isList) || vars.any fun v => v.type.element?.isSome

def group (lines : List Line) : List Line :=
  if lines.isEmpty then [] else lines ++ [{ depth := 0, text := "" }]

def programLines (options : Options) (p : Program) : Writing (List Line) := do
  let roots := Source.activeRoots options p
  let vars := variablesOf roots
  let names := Names.assign reserved vars
  let bodies ← roots.mapM (rootLines names)
  let declarations ← vars.mapM (declaration names)
  let line (text : String) : Line := { depth := 0, text }
  let vector := if usesVector roots vars then [line "#include <vector>"] else []
  return group (line "#include <Arduino.h>" :: vector)
    ++ group declarations
    ++ [line "void setup() \x7b", { depth := 1, text := "Serial.begin(9600);" }]
    ++ bodies.flatten
    ++ [line "\x7d", line "", line "void loop() \x7b", line "\x7d"]

def source (options : Options) (p : Program) : Writing String := do
  let lines ← programLines options p
  return Line.render options.indent lines

def phrase (options : Options) : Phrase → Writing String
  | .statement s => do
    let lines ← lines .none 0 s
    return Line.render options.indent lines
  | .value e => expr .none e

end Blockwork.Arduino
