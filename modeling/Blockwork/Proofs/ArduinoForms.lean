import Blockwork.Proofs.SourceLines
import Blockwork.Proofs.SourceTexts

/-! # Forms of Arduino statements

* `Arduino.shape` is the form of a statement, and `Arduino.braces` are the lines of a form.
* `Arduino.Braced` says what the texts in a form look like.
* `Arduino.weaves` says that a statement is written where it has a form, and that its lines are those of the form,
  with comments among them. `Arduino.weaves_program` says the same of a sketch.
-/

namespace Blockwork

set_option autoImplicit false

open List (mem_cons_self forall_mem_nil forall_mem_cons flatMap_cons)
open Source (isIdentChar IsIdentifier activeRoots)
open Line (Woven)

namespace Except

variable {ε α α' β β' : Type}
variable {x : Except ε α} {y : Except ε β}

def Agree (R : α → β → Prop) : Except ε α → Except ε β → Prop
  | .ok a, .ok b => R a b
  | .error e, .error e' => e = e'
  | _, _ => False

variable {R : α → β → Prop}

theorem Agree.bind {S : α' → β' → Prop} {f : α → Except ε α'} {g : β → Except ε β'} (h : Agree R x y)
    (hfg : ∀ a b, R a b → Agree S (f a) (g b)) : Agree S (x >>= f) (y >>= g) := by
  cases x with
  | error e =>
    cases y with
    | error e' => exact h
    | ok b => exact h.elim
  | ok a =>
    cases y with
    | error e' => exact h.elim
    | ok b => exact hfg a b h

theorem Agree.mono {S : α → β → Prop} (h : Agree R x y) (hRS : ∀ a b, R a b → S a b) : Agree S x y := by
  cases x with
  | error e =>
    cases y with
    | error e' => exact h
    | ok b => exact h.elim
  | ok a =>
    cases y with
    | error e' => exact h.elim
    | ok b => exact hRS a b h

theorem agree_bind {S : α' → β' → Prop} (x : Except ε α) {f : α → Except ε α'} {g : α → Except ε β'}
    (hfg : ∀ a, x = .ok a → Agree S (f a) (g a)) : Agree S (x >>= f) (x >>= g) := by
  cases x with
  | error e => rfl
  | ok a => exact hfg a rfl

theorem Agree.ok (h : Agree R x y) {a : α} (ha : x = .ok a) : ∃ b, y = .ok b ∧ R a b := by
  subst ha
  cases y with
  | error e => exact h.elim
  | ok b => exact ⟨b, rfl, h⟩

end Except

namespace Arduino

open Source (Alphabet Names)
variable {depth : Nat} {text : String} {body : List Shape} {comments : List Comment}

/-! ## Forms -/

def opened (header : String) : String :=
  header ++ " \x7b"

mutual

def shape (names : Names) (depth : Nat) : Stmt → Writing Shape
  | .assign target value _ => do
    let name ← var names target
    let text ← expr names value
    return .simple (name ++ " = " ++ text ++ ";")
  | .choose branches otherwise _ => do
    let clauses ← branchShapes names depth "if (" branches
    let last ← lastShapes names depth otherwise
    return .compound (clauses ++ last)
  | .repeat times body _ => do
    let text ← expr names times
    let counter := "_k" ++ Text.natText depth
    let inner ← shapes names (depth + 1) body
    return .compound [(opened ("for (int " ++ counter ++ " = 0; " ++ counter ++ " < " ++ text ++ "; " ++ counter
      ++ "++)"), inner)]
  | .loop mode condition body _ => do
    let text ← expr names condition
    let inner ← shapes names (depth + 1) body
    return .compound [(opened (loopHeader mode text), inner)]
  | .count counter first last step body _ => do
    let name ← var names counter
    let firstText ← expr names first
    let lastText ← expr names last
    let stepText ← expr names step
    let inner ← shapes names (depth + 1) body
    return .compound
      [(opened (countHeader (countsDown first last) name firstText lastText (grouped step stepText)), inner)]
  | .forEach item list body attrs => do
    let name ← var names item
    let type ← typeName attrs.id item.type
    let text ← expr names list
    let element := "_item" ++ Text.natText depth
    let inner ← shapes names (depth + 1) body
    return .compound [(opened ("for (" ++ type ++ " " ++ element ++ " : " ++ text ++ ")"),
      .simple (name ++ " = " ++ element ++ ";") :: inner)]
  | .flow choice _ => .ok (.simple (flowWord choice))
  | .wait time _ => do
    let text ← expr names time
    return .simple ("delay(" ++ text ++ ");")
  | .print text _ => do
    let text ← expr names text
    return .simple ("Serial.println(" ++ text ++ ");")

def branchShapes (names : Names) (depth : Nat) (word : String) :
    List (Expr × List Stmt) → Writing (List (String × List Shape))
  | [] => .ok []
  | (condition, body) :: rest => do
    let text ← expr names condition
    let inner ← shapes names (depth + 1) body
    let others ← branchShapes names depth "\x7d else if (" rest
    return (opened (word ++ text ++ ")"), inner) :: others

def lastShapes (names : Names) (depth : Nat) : Option (List Stmt) → Writing (List (String × List Shape))
  | none => .ok []
  | some body => do
    let inner ← shapes names (depth + 1) body
    return [(opened "\x7d else", inner)]

def shapes (names : Names) (depth : Nat) : List Stmt → Writing (List Shape)
  | [] => .ok []
  | s :: rest => do
    let first ← shape names depth s
    let others ← shapes names depth rest
    return first :: others

end

mutual

def braces (depth : Nat) : Shape → List Line
  | .simple text => [{ depth, text }]
  | .compound clauses => bracesClauses depth clauses ++ [closing depth]

def bracesClauses (depth : Nat) : List (String × List Shape) → List Line
  | [] => []
  | (header, body) :: rest =>
    { depth, text := header } :: (bracesAll (depth + 1) body ++ bracesClauses depth rest)

def bracesAll (depth : Nat) : List Shape → List Line
  | [] => []
  | s :: rest => braces depth s ++ bracesAll depth rest

end

attribute [local simp] braces bracesClauses bracesAll

variable {names : Names}

theorem bracesClauses_append (depth : Nat) (clauses clauses' : List (String × List Shape)) :
    bracesClauses depth (clauses ++ clauses') = bracesClauses depth clauses ++ bracesClauses depth clauses' := by
  induction clauses with
  | nil => simp
  | cons clause rest ih => simp [ih]

theorem bracesAll_append (depth : Nat) (body body' : List Shape) :
    bracesAll depth (body ++ body') = bracesAll depth body ++ bracesAll depth body' := by
  induction body with
  | nil => simp
  | cons s rest ih => simp [ih]

/-! ## Texts of statements -/

def BeginsWord (text : String) : Prop :=
  text.toList.head?.any isIdentChar = true

theorem BeginsWord.append {s : String} (h : BeginsWord s) (t : String) : BeginsWord (s ++ t) := by
  unfold BeginsWord at h ⊢
  rw [String.toList_append]
  cases hs : s.toList with
  | nil =>
    rw [hs] at h
    cases h
  | cons c cs =>
    rw [hs] at h
    exact h

theorem beginsWord_of_isIdentifier {s : String} (h : IsIdentifier s) : BeginsWord s := by
  obtain ⟨c, cs, hcs⟩ := List.exists_cons_of_ne_nil h.ne_nil
  have hc := h.chars c (hcs ▸ mem_cons_self)
  unfold BeginsWord
  rw [hcs]
  exact hc

/-- What a line does to the bodies around it. -/
inductive LineKind where
  | simple
  | opens
  | closes
  | reopens
deriving DecidableEq

def startsElse (text : String) : Bool :=
  text.toList.take 6 = ['\x7d', ' ', 'e', 'l', 's', 'e']

def endsOpen (text : String) : Bool :=
  text.toList.reverse.take 2 = ['\x7b', ' ']

def lineKind (text : String) : LineKind :=
  if text = "\x7d" then .closes
  else if startsElse text then .reopens
  else if endsOpen text then .opens
  else .simple

/-- A line of code that does the same with blanks before it. -/
structure IsLine (kind : LineKind) (text : String) : Prop where
  writes : alphabet.Writes text
  head : text.toList.head? ≠ some ' '
  kind_eq : lineKind text = kind

/-- The first clause opens a body, and the others close the body before and open theirs. Of the lines without a body more
may be known. -/
inductive Braced (P : String → Prop) : Shape → Prop
  | simple {text : String} (h : IsLine .simple text) (hP : P text) : Braced P (.simple text)
  | compound {header : String} {body : List Shape} {rest : List (String × List Shape)} (hheader : IsLine .opens header)
    (hrest : ∀ clause ∈ rest, IsLine .reopens clause.1) (hbody : ∀ t ∈ body, Braced P t)
    (hbodies : ∀ clause ∈ rest, ∀ t ∈ clause.2, Braced P t) : Braced P (.compound ((header, body) :: rest))

theorem Braced.mono {P Q : String → Prop} {t : Shape} (h : Braced P t) (hPQ : ∀ text, P text → Q text) : Braced Q t := by
  induction h with
  | simple h hP => exact .simple h (hPQ _ hP)
  | compound hheader hrest _ _ ihbody ihrest => exact .compound hheader hrest ihbody ihrest

theorem BeginsWord.head?_ne (h : BeginsWord text) {c : Char} (hc : isIdentChar c = false) :
    text.toList.head? ≠ some c := by
  intro hhead
  rw [BeginsWord, hhead] at h
  exact absurd h (by simp [hc])

theorem BeginsWord.lineKind_eq (h : BeginsWord text) : lineKind text = if endsOpen text then .opens else .simple := by
  have hbrace : text.toList.head? ≠ some '\x7d' := h.head?_ne (by decide)
  have hclose : text ≠ "\x7d" := by
    rintro rfl
    exact hbrace rfl
  have helse : startsElse text = false := by
    rw [startsElse, decide_eq_false_iff_not]
    intro htake
    apply hbrace
    have hhead := congrArg List.head? htake
    rwa [List.head?_take, if_neg (by decide)] at hhead
  rw [lineKind, if_neg hclose, helse, if_neg Bool.false_ne_true]

variable {s t : String}

theorem isSimple_of (hwrites : alphabet.Writes s) (hbegins : BeginsWord s) :
    IsLine .simple (s ++ ";") ∧ BeginsWord (s ++ ";") := by
  have hends : endsOpen (s ++ ";") = false := by simp [endsOpen]
  refine ⟨⟨hwrites.append_sign (.of rfl), (hbegins.append _).head?_ne (by decide), ?_⟩, hbegins.append _⟩
  rw [(hbegins.append _).lineKind_eq, hends]
  rfl

theorem isOpening_of (hwrites : alphabet.Writes s) (hbegins : BeginsWord s) : IsLine .opens (opened s) := by
  have hends : endsOpen (opened s) = true := by simp [endsOpen, opened]
  refine ⟨hwrites.append_sign (.of rfl), (hbegins.append _).head?_ne (by decide), ?_⟩
  rw [opened, (hbegins.append _).lineKind_eq]
  exact if_pos hends

theorem isSimple_assign (hs : IsIdentifier s) (ht : alphabet.Writes t) :
    IsLine .simple (s ++ " = " ++ t ++ ";") ∧ BeginsWord (s ++ " = " ++ t ++ ";") :=
  isSimple_of ((Alphabet.isSign_of_isIdentifier hs).writes.separated (.of rfl) ht)
    (((beginsWord_of_isIdentifier hs).append _).append _)

theorem isSimple_call {opening : String} (hopening : alphabet.IsSign opening) (hbegins : BeginsWord opening)
    (ht : alphabet.Writes t) : IsLine .simple (opening ++ t ++ ");") ∧ BeginsWord (opening ++ t ++ ");") := by
  have htail : ");" = ")" ++ ";" := rfl
  rw [htail, ← String.append_assoc]
  exact isSimple_of (ht.enclosed hopening (.of rfl)) ((hbegins.append _).append _)

theorem isSimple_flow (choice : Flow) : IsLine .simple (flowWord choice) ∧ BeginsWord (flowWord choice) := by
  cases choice with
  | «break» => exact isSimple_of (s := "break") (Alphabet.IsSign.of rfl).writes rfl
  | «continue» => exact isSimple_of (s := "continue") (Alphabet.IsSign.of rfl).writes rfl

theorem isSign_temporary {word : String} (hword : alphabet.IsSign word) (depth : Nat) :
    alphabet.IsSign (word ++ Text.natText depth) :=
  hword.append (Alphabet.isSign_of_isNumeral (Source.isBare_natText depth).toIsNumeral)

theorem isOpening_repeat {counter : String} (hcounter : alphabet.IsSign counter) (ht : alphabet.Writes t) :
    IsLine .opens (opened ("for (int " ++ counter ++ " = 0; " ++ counter ++ " < " ++ t ++ "; " ++ counter ++ "++)")) := by
  have hstart : alphabet.IsSign ("for (int " ++ counter ++ " = 0; " ++ counter ++ " < ") :=
    (((Alphabet.IsSign.append (.of rfl) hcounter).append (.of rfl)).append hcounter).append (.of rfl)
  apply isOpening_of
  · exact (((hstart.append_writes ht).append_sign (.of rfl)).append_sign hcounter).append_sign (.of rfl)
  · simp [BeginsWord, isIdentChar, Text.isLetter]

theorem isOpening_loop (mode : LoopMode) (ht : alphabet.Writes t) : IsLine .opens (opened (loopHeader mode t)) := by
  cases mode with
  | «while» =>
    apply isOpening_of
    · exact ht.enclosed (.of rfl) (.of rfl)
    · simp [BeginsWord, loopHeader, isIdentChar, Text.isLetter]
  | «until» =>
    apply isOpening_of
    · exact ht.enclosed (.of rfl) (.of rfl)
    · simp [BeginsWord, loopHeader, isIdentChar, Text.isLetter]

theorem isOpening_count (down : Bool) {counter first last step : String} (hcounter : alphabet.IsSign counter)
    (hfirst : alphabet.Writes first) (hlast : alphabet.Writes last) (hstep : alphabet.Writes step) :
    IsLine .opens (opened (countHeader down counter first last step)) := by
  obtain ⟨test, move, htest, hmove, hheader⟩ : ∃ test move, alphabet.IsSign test ∧ alphabet.IsSign move ∧
      countHeader down counter first last step =
        "for (" ++ counter ++ " = " ++ first ++ "; " ++ counter ++ test ++ last ++ "; " ++ counter ++ move ++ step ++ ")" := by
    cases down with
    | true => exact ⟨" >= ", " -= ", .of rfl, .of rfl, rfl⟩
    | false => exact ⟨" <= ", " += ", .of rfl, .of rfl, rfl⟩
  have hstart : alphabet.IsSign ("for (" ++ counter ++ " = ") :=
    (Alphabet.IsSign.append (.of rfl) hcounter).append (.of rfl)
  have htested : alphabet.Writes ("for (" ++ counter ++ " = " ++ first ++ "; " ++ counter ++ test ++ last) :=
    (((hstart.append_writes hfirst).append_sign (.of rfl)).append_sign hcounter).separated htest hlast
  rw [hheader]
  apply isOpening_of
  · exact (((htested.append_sign (.of rfl)).append_sign hcounter).separated hmove hstep).append_sign (.of rfl)
  · simp [BeginsWord, isIdentChar, Text.isLetter]

theorem isOpening_forEach {type element : String} (htype : alphabet.IsSign type) (helement : alphabet.IsSign element)
    (ht : alphabet.Writes t) : IsLine .opens (opened ("for (" ++ type ++ " " ++ element ++ " : " ++ t ++ ")")) := by
  have hstart : alphabet.IsSign ("for (" ++ type ++ " " ++ element ++ " : ") :=
    (((Alphabet.IsSign.append (.of rfl) htype).append (.of rfl)).append helement).append (.of rfl)
  apply isOpening_of
  · exact ht.enclosed hstart (.of rfl)
  · simp [BeginsWord, isIdentChar, Text.isLetter]

theorem isOpening_if (ht : alphabet.Writes t) : IsLine .opens (opened ("if (" ++ t ++ ")")) := by
  apply isOpening_of
  · exact ht.enclosed (.of rfl) (.of rfl)
  · simp [BeginsWord, isIdentChar, Text.isLetter]

theorem isElse_of (hwrites : alphabet.Writes ("\x7d else" ++ s)) : IsLine .reopens (opened ("\x7d else" ++ s)) := by
  have hclose : opened ("\x7d else" ++ s) ≠ "\x7d" := by
    intro heq
    have hlength := congrArg (fun text : String => text.toList.length) heq
    simp [opened] at hlength
  refine ⟨hwrites.append_sign (.of rfl), by simp [opened], ?_⟩
  rw [lineKind, if_neg hclose]
  exact if_pos (by simp [startsElse, opened])

theorem isElse_elseIf (ht : alphabet.Writes t) : IsLine .reopens (opened ("\x7d else if (" ++ t ++ ")")) := by
  have hword : "\x7d else if (" ++ t ++ ")" = "\x7d else" ++ (" if (" ++ t ++ ")") := by
    rw [show "\x7d else if (" = "\x7d else" ++ " if (" from rfl]
    simp only [String.append_assoc]
  have hwrites : alphabet.Writes ("\x7d else if (" ++ t ++ ")") := ht.enclosed (.of rfl) (.of rfl)
  rw [hword] at hwrites ⊢
  exact isElse_of hwrites

theorem isElse_else : IsLine .reopens (opened "\x7d else") :=
  isElse_of (s := "") (Alphabet.IsSign.of rfl).writes

/-! ## Lines and forms -/

theorem isIdentifier_var (hnames : ∀ name, IsIdentifier (names.get name)) {v : Var}
    (h : var names v = .ok text) : IsIdentifier text := by
  obtain ⟨_, -, h⟩ := Except.bind_ok_iff.mp h
  cases h
  exact hnames v.name

theorem braced_loop {P : String → Prop} {header : String} (hheader : IsLine .opens header)
    (hbody : ∀ t ∈ body, Braced P t) : Braced P (.compound [(header, body)]) :=
  .compound hheader (forall_mem_nil _) hbody (forall_mem_nil _)

/-- The clauses of a statement after its first one. -/
def Further (clauses : List (String × List Shape)) : Prop :=
  ∀ clause ∈ clauses, IsLine .reopens clause.1 ∧ ∀ t ∈ clause.2, Braced BeginsWord t

def Weaves (names : Names) (depth : Nat) (s : Stmt) : Prop :=
  Except.Agree (fun lines t => Woven "//" lines (braces depth t) s.comments ∧ Braced BeginsWord t) (lines names depth s)
    (shape names depth s)

theorem weaves_all {body : List Stmt} (h : ∀ s ∈ body, Weaves names depth s) :
    Except.Agree
      (fun lines ts => Woven "//" lines (bracesAll depth ts) (Stmt.commentsIn body) ∧ ∀ t ∈ ts, Braced BeginsWord t)
      (linesOf names depth body) (shapes names depth body) := by
  induction body with
  | nil => exact ⟨.nil, forall_mem_nil _⟩
  | cons s rest ih =>
    rw [linesOf, shapes]
    refine (h s mem_cons_self).bind fun first t hfirst => ?_
    refine (ih fun s hs => h s (List.mem_cons_of_mem _ hs)).bind fun others ts hothers => ?_
    rw [Stmt.commentsIn_cons]
    exact ⟨hfirst.1.append hothers.1, forall_mem_cons.mpr ⟨hfirst.2, hothers.2⟩⟩

theorem weaves_branch {kind : LineKind} {condition : Expr} {body : List Stmt} {rest : List (Expr × List Stmt)}
    {word : String}
    (hheader : ∀ text, expr names condition = .ok text → IsLine kind (opened (word ++ text ++ ")")))
    (hbody : ∀ s ∈ body, Weaves names (depth + 1) s)
    (hrest : Except.Agree
      (fun lines clauses => Woven "//" lines (bracesClauses depth clauses) comments ∧ Further clauses)
      (linesOfBranches names depth "\x7d else if (" rest) (branchShapes names depth "\x7d else if (" rest)) :
    Except.Agree
      (fun lines clauses => ∃ header ts further inner, clauses = (header, ts) :: further ∧
        lines = Line.mk depth header :: inner ∧ IsLine kind header ∧ (∀ t ∈ ts, Braced BeginsWord t) ∧ Further further ∧
        Woven "//" inner (bracesAll (depth + 1) ts ++ bracesClauses depth further) (Stmt.commentsIn body ++ comments))
      (linesOfBranches names depth word ((condition, body) :: rest))
      (branchShapes names depth word ((condition, body) :: rest)) := by
  rw [linesOfBranches, branchShapes]
  refine Except.agree_bind _ fun text htext => ?_
  refine (weaves_all hbody).bind fun inner ts hinner => hrest.bind fun others clauses hothers => ?_
  exact ⟨_, _, _, _, rfl, rfl, hheader text htext, hinner.2, hothers.2, hinner.1.append hothers.1⟩

theorem weaves_branches {branches : List (Expr × List Stmt)}
    (hconditions : ∀ branch ∈ branches, ∀ text, expr names branch.1 = .ok text → alphabet.Writes text)
    (h : ∀ branch ∈ branches, ∀ s ∈ branch.2, Weaves names (depth + 1) s) :
    Except.Agree (fun lines clauses => Woven "//" lines (bracesClauses depth clauses)
        ((Stmt.allInBranches branches).flatMap fun s => s.attrs.comment.toList) ∧ Further clauses)
      (linesOfBranches names depth "\x7d else if (" branches) (branchShapes names depth "\x7d else if (" branches) := by
  induction branches with
  | nil => exact ⟨.nil, forall_mem_nil _⟩
  | cons branch rest ih =>
    obtain ⟨condition, body⟩ := branch
    obtain ⟨hcondition, hconditions⟩ := forall_mem_cons.mp hconditions
    obtain ⟨hbody, hbodies⟩ := forall_mem_cons.mp h
    refine (weaves_branch (fun text htext => isElse_elseIf (hcondition text htext)) hbody (ih hconditions hbodies)).mono ?_
    rintro _ _ ⟨header, ts, further, inner, rfl, rfl, hheader, hts, hfurther, hwoven⟩
    rw [bracesClauses, Stmt.allInBranches, List.flatMap_append]
    exact ⟨.plain _ hwoven, forall_mem_cons.mpr ⟨⟨hheader, hts⟩, hfurther⟩⟩

theorem weaves_otherwise {otherwise : Option (List Stmt)}
    (h : ∀ body, otherwise = some body → ∀ s ∈ body, Weaves names (depth + 1) s) :
    Except.Agree (fun lines clauses => Woven "//" lines (bracesClauses depth clauses)
        ((Stmt.allInOtherwise otherwise).flatMap fun s => s.attrs.comment.toList) ∧ Further clauses)
      (linesOfOtherwise names depth otherwise) (lastShapes names depth otherwise) := by
  cases otherwise with
  | none => exact ⟨.nil, forall_mem_nil _⟩
  | some body =>
    rw [linesOfOtherwise, lastShapes]
    refine (weaves_all (h body rfl)).bind fun inner ts hinner => ?_
    have hlast : Woven "//" (headed depth "\x7d else" inner) (bracesClauses depth [(opened "\x7d else", ts)])
        (Stmt.commentsIn body) := by
      rw [bracesClauses, bracesClauses, List.append_nil]
      exact .plain _ hinner.1
    exact ⟨hlast, List.forall_mem_singleton.mpr ⟨isElse_else, hinner.2⟩⟩

theorem IsLine.ne_empty {kind : LineKind} (h : IsLine kind text) (hkind : kind ≠ .simple) : text ≠ "" := by
  rintro rfl
  exact hkind h.kind_eq.symm

theorem woven_braced {header : String} {lines : List Line} {ts : List Shape} (attrs : Attributes)
    (hheader : IsLine .opens (opened header))
    (h : Woven "//" lines (bracesAll (depth + 1) ts) comments ∧ ∀ t ∈ ts, Braced BeginsWord t) :
    Woven "//" (remarks depth attrs ++ braced depth header lines) (braces depth (.compound [(opened header, ts)]))
        (attrs.comment.toList ++ comments) ∧
      Braced BeginsWord (.compound [(opened header, ts)]) := by
  have hclosed := h.1.append (.refl [closing depth])
  rw [List.append_nil] at hclosed
  have hbraces : braces depth (.compound [(opened header, ts)]) =
      { depth, text := opened header } :: (bracesAll (depth + 1) ts ++ [closing depth]) := by simp
  rw [hbraces]
  exact ⟨.headed (l := Line.mk depth _) _ (hheader.ne_empty (by decide)) hclosed, braced_loop hheader h.2⟩

theorem woven_simple (attrs : Attributes) (h : IsLine .simple text ∧ BeginsWord text) :
    Woven "//" (remarks depth attrs ++ [Line.mk depth text]) (braces depth (.simple text))
        (attrs.comment.toList ++ []) ∧
      Braced BeginsWord (.simple text) := by
  have hne : text ≠ "" := by
    rintro rfl
    cases h.2
  exact ⟨.headed (l := Line.mk depth text) _ hne .nil, .simple h.1 h.2⟩

theorem weaves (hnames : ∀ name, IsIdentifier (names.get name)) (s : Stmt) (h : s.Everywhere Stmt.Writable)
    (depth : Nat) : Weaves names depth s := by
  have hwrites : ∀ {e : Expr} {text : String}, e.Everywhere Python.Writable → expr names e = .ok text →
      alphabet.Writes text := fun he htext => writes_expr hnames _ he htext
  unfold Weaves
  induction s generalizing depth with
  | assign target value attrs =>
    rw [lines, shape, Stmt.comments, Stmt.all, flatMap_cons]
    refine Except.agree_bind _ fun name hname => Except.agree_bind _ fun text htext => ?_
    have htext := hwrites (h.here.exprs value mem_cons_self) htext
    exact woven_simple attrs (isSimple_assign (isIdentifier_var hnames hname) htext)
  | choose branches otherwise attrs ih ih' =>
    obtain ⟨hhere, hbranches, hotherwise⟩ := Stmt.everywhere_choose.mp h
    have hlast : Except.Agree _ (linesOfOtherwise names depth otherwise) (lastShapes names depth otherwise) :=
      weaves_otherwise fun body hbody s hs => ih' body hbody s hs (hotherwise body hbody s hs) (depth + 1)
    have hconditions : ∀ branch ∈ branches, ∀ text, expr names branch.1 = .ok text → alphabet.Writes text :=
      fun branch hbranch text htext => hwrites (hhere.exprs _ (List.mem_map_of_mem hbranch)) htext
    have hbodies : ∀ branch ∈ branches, ∀ s ∈ branch.2, Weaves names (depth + 1) s :=
      fun branch hbranch s hs => ih branch hbranch s hs (hbranches branch hbranch s hs) (depth + 1)
    cases branches with
    | nil => exact absurd rfl (hhere.branched otherwise attrs)
    | cons branch rest =>
      obtain ⟨condition, body⟩ := branch
      obtain ⟨hcondition, hconditions⟩ := forall_mem_cons.mp hconditions
      obtain ⟨hbody, hbodies⟩ := forall_mem_cons.mp hbodies
      rw [lines, shape]
      refine (weaves_branch (fun text htext => isOpening_if (hcondition text htext)) hbody
        (weaves_branches hconditions hbodies)).bind ?_
      rintro _ _ ⟨header, ts, further, inner, rfl, rfl, hheader, hts, hfurther, hinner⟩
      refine hlast.bind fun last clauses hlast => ⟨?_, ?_⟩
      · have hall := Woven.headed (l := Line.mk depth header) attrs.comment (hheader.ne_empty (by decide))
          ((hinner.append hlast.1).append (.refl [closing depth]))
        simpa [remarks, bracesClauses_append, Stmt.comments, Stmt.commentsIn, Stmt.all, Stmt.allInBranches, Stmt.attrs]
          using hall
      · have hmore := List.forall_mem_append.mpr ⟨hfurther, hlast.2⟩
        exact .compound hheader (fun clause hclause => (hmore clause hclause).1) hts
          fun clause hclause => (hmore clause hclause).2
  | repeat' times body attrs ih =>
    obtain ⟨hhere, hbody⟩ := Stmt.everywhere_repeat.mp h
    rw [lines, shape, Stmt.comments, Stmt.all, flatMap_cons]
    refine Except.agree_bind _ fun text htext => ?_
    refine (weaves_all fun s hs => ih s hs (hbody s hs) (depth + 1)).bind fun inner ts hinner => ?_
    have htext := hwrites (hhere.exprs times mem_cons_self) htext
    exact woven_braced attrs (isOpening_repeat (isSign_temporary (.of rfl) depth) htext) hinner
  | loop mode condition body attrs ih =>
    obtain ⟨hhere, hbody⟩ := Stmt.everywhere_loop.mp h
    rw [lines, shape, Stmt.comments, Stmt.all, flatMap_cons]
    refine Except.agree_bind _ fun text htext => ?_
    refine (weaves_all fun s hs => ih s hs (hbody s hs) (depth + 1)).bind fun inner ts hinner => ?_
    exact woven_braced attrs (isOpening_loop mode (hwrites (hhere.exprs condition mem_cons_self) htext)) hinner
  | count counter first last step body attrs ih =>
    obtain ⟨hhere, hbody⟩ := Stmt.everywhere_count.mp h
    rw [lines, shape, Stmt.comments, Stmt.all, flatMap_cons]
    refine Except.agree_bind _ fun name hname => Except.agree_bind _ fun firstText hfirst => ?_
    refine Except.agree_bind _ fun lastText hlast => Except.agree_bind _ fun stepText hstep => ?_
    refine (weaves_all fun s hs => ih s hs (hbody s hs) (depth + 1)).bind fun inner ts hinner => ?_
    refine woven_braced attrs (isOpening_count _ (writes_var hnames hname) ?_ ?_ (writes_grouped step ?_)) hinner
    · exact hwrites (hhere.exprs first (by simp [Stmt.exprs])) hfirst
    · exact hwrites (hhere.exprs last (by simp [Stmt.exprs])) hlast
    · exact hwrites (hhere.exprs step (by simp [Stmt.exprs])) hstep
  | forEach item list body attrs ih =>
    obtain ⟨hhere, hbody⟩ := Stmt.everywhere_forEach.mp h
    rw [lines, shape, Stmt.comments, Stmt.all, flatMap_cons]
    refine Except.agree_bind _ fun name hname => Except.agree_bind _ fun type htype => ?_
    refine Except.agree_bind _ fun text htext => ?_
    refine (weaves_all fun s hs => ih s hs (hbody s hs) (depth + 1)).bind fun inner ts hinner => ?_
    have helement : alphabet.IsSign ("_item" ++ Text.natText depth) := isSign_temporary (.of rfl) depth
    have hitem := isSimple_assign (isIdentifier_var hnames hname) helement.writes
    have htext := hwrites (hhere.exprs list mem_cons_self) htext
    refine woven_braced attrs (isOpening_forEach (isSign_typeName htype) helement htext) ⟨?_, ?_⟩
    · rw [bracesAll, braces]
      exact .plain _ hinner.1
    · exact forall_mem_cons.mpr ⟨.simple hitem.1 hitem.2, hinner.2⟩
  | flow choice attrs =>
    rw [lines, shape, Stmt.comments, Stmt.all, flatMap_cons]
    exact woven_simple attrs (isSimple_flow choice)
  | wait time attrs =>
    rw [lines, shape, Stmt.comments, Stmt.all, flatMap_cons]
    refine Except.agree_bind _ fun text htext => ?_
    have htext := hwrites (h.here.exprs time mem_cons_self) htext
    exact woven_simple attrs (isSimple_call (.of rfl) rfl htext)
  | print text attrs =>
    rw [lines, shape, Stmt.comments, Stmt.all, flatMap_cons]
    refine Except.agree_bind _ fun inner hinner => ?_
    have htext := hwrites (h.here.exprs text mem_cons_self) hinner
    exact woven_simple attrs (isSimple_call (.of rfl) rfl htext)

/-! ## Sketches -/

def rootShapes (names : Names) : Root → Writing (List Shape)
  | .statements body => shapes names 1 body
  | .value e => .error (.unsupported .arduino .floatingExpression e.id)

/-- The form of a sketch: a heading, and the functions that run once and again and again. -/
def sketch (heading : List String) (body : List Shape) : List Shape :=
  heading.map .simple ++
    [.compound [("void setup() \x7b", .simple "Serial.begin(9600);" :: body)], .simple "",
     .compound [("void loop() \x7b", [])]]

def headingLines (roots : List Root) (vars : List Var) (declarations : List Line) : List Line :=
  group ({ depth := 0, text := "#include <Arduino.h>" } ::
      if usesVector roots vars then [{ depth := 0, text := "#include <vector>" }] else [])
    ++ group declarations

def sketchShapes (options : Source.Options) (p : Program) : Writing (List Shape) := do
  let roots := activeRoots options p
  let vars := variablesOf roots
  let names := Names.assign reserved vars
  let bodies ← roots.mapM (rootShapes names)
  let declarations ← vars.mapM (declaration names)
  return sketch ((headingLines roots vars declarations).map Line.text) bodies.flatten

theorem weaves_root (hnames : ∀ name, IsIdentifier (names.get name)) {root : Root} (h : root.Writable) :
    Except.Agree (fun lines ts => Woven "//" lines (bracesAll 1 ts) root.comments ∧ ∀ t ∈ ts, Braced BeginsWord t)
      (rootLines names root) (rootShapes names root) := by
  cases root with
  | statements body => exact weaves_all fun s hs => weaves hnames s (h.everywhere hs) 1
  | value e => rfl

theorem weaves_roots (hnames : ∀ name, IsIdentifier (names.get name)) {roots : List Root}
    (h : ∀ root ∈ roots, root.Writable) :
    Except.Agree
      (fun bodies ts => Woven "//" bodies.flatten (bracesAll 1 ts.flatten) (roots.flatMap Root.comments) ∧
        ∀ t ∈ ts.flatten, Braced BeginsWord t)
      (roots.mapM (rootLines names)) (roots.mapM (rootShapes names)) := by
  induction roots with
  | nil => exact ⟨.nil, forall_mem_nil _⟩
  | cons root rest ih =>
    rw [List.mapM_cons, List.mapM_cons]
    refine (weaves_root hnames (h root mem_cons_self)).bind fun lines ts hfirst => ?_
    refine (ih fun root hroot => h root (List.mem_cons_of_mem _ hroot)).bind fun others ts' hothers => ?_
    have hboth := hfirst.1.append hothers.1
    rw [← bracesAll_append] at hboth
    exact ⟨hboth, List.forall_mem_append.mpr ⟨hfirst.2, hothers.2⟩⟩

/-- The lines of the heading stand at depth zero, and do nothing to bodies. -/
structure IsHeading (l : Line) : Prop where
  depth_eq : l.depth = 0
  isLine : IsLine .simple l.text

theorem beginsWord_typeName {id name : String} {type : Ty} (h : typeName id type = .ok name) : BeginsWord name := by
  fun_induction typeName id type with
  | case1 => exact Except.ok.inj h ▸ rfl
  | case2 => exact Except.ok.inj h ▸ rfl
  | case3 => exact Except.ok.inj h ▸ rfl
  | case4 => cases h
  | case5 =>
    have hvector : BeginsWord "std::vector<" := rfl
    obtain ⟨inner, -, hname⟩ := Except.bind_ok_iff.mp h
    rw [← Except.ok.inj hname]
    exact (hvector.append _).append _
  | case6 => cases h

theorem isHeading_declaration (hnames : ∀ name, IsIdentifier (names.get name)) {v : Var} {l : Line}
    (h : declaration names v = .ok l) : IsHeading l := by
  obtain ⟨type, htype, h⟩ := Except.bind_ok_iff.mp h
  cases h
  refine ⟨rfl, (isSimple_of ?_ (((beginsWord_typeName htype).append _).append _)).1⟩
  exact (((isSign_typeName htype).append (.of rfl)).append (Alphabet.isSign_of_isIdentifier (hnames v.name))).writes

theorem isHeading_group {lines : List Line} (h : ∀ l ∈ lines, IsHeading l) : ∀ l ∈ group lines, IsHeading l := by
  have hblank : IsHeading { depth := 0, text := "" } := ⟨rfl, .nil, nofun, rfl⟩
  unfold group
  split
  · exact forall_mem_nil _
  · exact List.forall_mem_append.mpr ⟨h, List.forall_mem_singleton.mpr hblank⟩

theorem isHeading_headingLines (hnames : ∀ name, IsIdentifier (names.get name)) (roots : List Root)
    {vars : List Var} {declarations : List Line} (h : vars.mapM (declaration names) = .ok declarations) :
    ∀ l ∈ headingLines roots vars declarations, IsHeading l := by
  have hinclude : IsHeading { depth := 0, text := "#include <Arduino.h>" } :=
    ⟨rfl, (Alphabet.IsSign.of rfl).writes, nofun, rfl⟩
  have hvector : IsHeading { depth := 0, text := "#include <vector>" } :=
    ⟨rfl, (Alphabet.IsSign.of rfl).writes, nofun, rfl⟩
  refine List.forall_mem_append.mpr ⟨isHeading_group ?_, isHeading_group ?_⟩
  · refine forall_mem_cons.mpr ⟨hinclude, ?_⟩
    split
    · exact List.forall_mem_singleton.mpr hvector
    · exact forall_mem_nil _
  · intro l hl
    obtain ⟨v, -, hv⟩ := exists_of_mem_right (Except.mapM_ok_iff.mp h) hl
    exact isHeading_declaration hnames hv

theorem bracesAll_simple {lines : List Line} (h : ∀ l ∈ lines, l.depth = 0) :
    bracesAll 0 ((lines.map Line.text).map .simple) = lines := by
  induction lines with
  | nil => simp
  | cons l rest ih =>
    have hrest := ih fun l hl => h l (List.mem_cons_of_mem _ hl)
    have hl := h l mem_cons_self
    simp only [List.map_cons, bracesAll, braces, hrest, List.singleton_append]
    rw [← hl]

theorem woven_sketch {heading lines : List Line} (hheading : ∀ l ∈ heading, l.depth = 0)
    (h : Woven "//" lines (bracesAll 1 body) comments) :
    Woven "//"
      (heading ++ [{ depth := 0, text := "void setup() \x7b" }, { depth := 1, text := "Serial.begin(9600);" }] ++ lines
        ++ [closing 0, { depth := 0, text := "" }, { depth := 0, text := "void loop() \x7b" }, closing 0])
      (bracesAll 0 (sketch (heading.map Line.text) body)) comments := by
  have hbraces : bracesAll 0 (sketch (heading.map Line.text) body) =
      heading ++ [{ depth := 0, text := "void setup() \x7b" }, { depth := 1, text := "Serial.begin(9600);" }]
        ++ bracesAll 1 body
        ++ [closing 0, { depth := 0, text := "" }, { depth := 0, text := "void loop() \x7b" }, closing 0] := by
    rw [sketch, bracesAll_append, bracesAll_simple hheading]
    simp
  rw [hbraces, ← List.append_nil comments, ← List.nil_append comments]
  exact ((Woven.refl _).append h).append (.refl _)

theorem braced_sketch {heading : List Line} (hheading : ∀ l ∈ heading, IsHeading l)
    (hbody : ∀ t ∈ body, Braced BeginsWord t) :
    ∀ t ∈ sketch (heading.map Line.text) body, Braced (fun _ => True) t := by
  have hbegin : Braced (fun _ => True) (.simple "Serial.begin(9600);") :=
    .simple (isSimple_of (s := "Serial.begin(9600)") (Alphabet.IsSign.of rfl).writes rfl).1 trivial
  have hempty : Braced (fun _ => True) (.simple "") := .simple ⟨.nil, nofun, rfl⟩ trivial
  have hbody : ∀ t ∈ body, Braced (fun _ => True) t := fun t ht => (hbody t ht).mono fun _ _ => trivial
  have hsetup : IsLine .opens "void setup() \x7b" :=
    isOpening_of (s := "void setup()") (Alphabet.IsSign.of rfl).writes rfl
  have hloop : IsLine .opens "void loop() \x7b" :=
    isOpening_of (s := "void loop()") (Alphabet.IsSign.of rfl).writes rfl
  refine List.forall_mem_append.mpr ⟨?_, ?_⟩
  · intro t ht
    rw [List.map_map] at ht
    obtain ⟨l, hl, rfl⟩ := List.mem_map.mp ht
    exact .simple (hheading l hl).isLine trivial
  · simp only [forall_mem_cons]
    exact ⟨braced_loop hsetup (forall_mem_cons.mpr ⟨hbegin, hbody⟩), hempty, braced_loop hloop (forall_mem_nil _),
      forall_mem_nil _⟩

theorem weaves_program {options : Source.Options} {p : Program}
    (h : ∀ root ∈ activeRoots options p, root.Writable) :
    Except.Agree
      (fun lines ts =>
        Woven "//" lines (bracesAll 0 ts) ((activeRoots options p).flatMap Root.comments) ∧
        ∀ t ∈ ts, Braced (fun _ => True) t)
      (programLines options p) (sketchShapes options p) := by
  unfold programLines sketchShapes
  refine (weaves_roots (Names.isIdentifier_get _ _) h).bind fun bodies ts hbodies => ?_
  refine Except.agree_bind _ fun declarations hdeclarations => ?_
  have hheading := isHeading_headingLines (Names.isIdentifier_get _ _) (activeRoots options p) hdeclarations
  exact ⟨woven_sketch (fun l hl => (hheading l hl).depth_eq) hbodies.1, braced_sketch hheading hbodies.2⟩

end Arduino

end Blockwork
