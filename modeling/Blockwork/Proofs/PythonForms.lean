import Blockwork.Proofs.SourceLines
import Blockwork.Proofs.SourceTexts

/-! # Forms of Python statements

Every statement is written as one line, or as headers with bodies below them. The form of a statement says which, and
the lines of a form depend on nothing else.
-/

namespace Blockwork.Python

set_option autoImplicit false

open Source (Alphabet Names Opens)
open List (mem_cons_self mem_cons_of_mem flatMap_cons mem_append)
open String (append_assoc)
open Line (Woven)

/-! ## Forms -/

mutual

def shape (names : Names) : Stmt → Shape
  | .assign target value _ => .simple (names.get target.name ++ " = " ++ expr names value)
  | .choose branches otherwise _ => .compound (branchShapes names "if " branches ++ lastShapes names otherwise)
  | .repeat times body _ => .compound [("for _ in range(int(" ++ expr names times ++ ")):", shapes names body)]
  | .loop mode condition body _ => .compound [(loopHeader mode (expr names condition), shapes names body)]
  | .count counter first last step body _ =>
    .compound [("for " ++ names.get counter.name ++ " in " ++ range names first last step ++ ":", shapes names body)]
  | .forEach item list body _ =>
    .compound [("for " ++ names.get item.name ++ " in " ++ expr names list ++ ":", shapes names body)]
  | .flow choice _ => .simple (flowWord choice)
  | .wait time _ => .simple ("time.sleep(" ++ grouped time (expr names time) ++ " / 1000)")
  | .print text _ => .simple ("print(" ++ expr names text ++ ")")

def branchShapes (names : Names) (word : String) : List (Expr × List Stmt) → List (String × List Shape)
  | [] => []
  | (condition, body) :: rest =>
    (word ++ expr names condition ++ ":", shapes names body) :: branchShapes names "elif " rest

def lastShapes (names : Names) : Option (List Stmt) → List (String × List Shape)
  | none => []
  | some body => [("else:", shapes names body)]

def shapes (names : Names) : List Stmt → List Shape
  | [] => []
  | s :: rest => shape names s :: shapes names rest

end

mutual

def layout (depth : Nat) : Shape → List Line
  | .simple text => [{ depth, text }]
  | .compound clauses => layoutClauses depth clauses

def layoutClauses (depth : Nat) : List (String × List Shape) → List Line
  | [] => []
  | (header, body) :: rest =>
    { depth, text := header } :: (layoutBody (depth + 1) body ++ layoutClauses depth rest)

def layoutBody (depth : Nat) : List Shape → List Line
  | [] => [{ depth, text := "pass" }]
  | s :: rest => layout depth s ++ layoutAll depth rest

def layoutAll (depth : Nat) : List Shape → List Line
  | [] => []
  | s :: rest => layout depth s ++ layoutAll depth rest

end

attribute [local simp] shape branchShapes lastShapes shapes layout layoutClauses layoutBody layoutAll
attribute [local simp] lines linesOfBranches linesOfOtherwise linesOfBody linesOf

variable {names : Names}

theorem shapes_eq_map (body : List Stmt) : shapes names body = body.map (shape names) := by
  induction body with
  | nil => simp
  | cons s rest ih => simp [ih]

variable {body : List Shape} {depth : Nat} {s text : String} {root : Root}

theorem layoutBody_of_ne_nil (depth : Nat) (h : body ≠ []) : layoutBody depth body = layoutAll depth body := by
  cases body with
  | nil => exact absurd rfl h
  | cons s rest => simp

theorem layoutClauses_append (depth : Nat) (clauses clauses' : List (String × List Shape)) :
    layoutClauses depth (clauses ++ clauses') = layoutClauses depth clauses ++ layoutClauses depth clauses' := by
  induction clauses with
  | nil => simp
  | cons clause rest ih => simp [ih]

/-! ## Lines and forms -/

theorem woven_linesOf {body : List Stmt}
    (h : ∀ s ∈ body, Woven "#" (lines names depth s) (layout depth (shape names s)) s.comments) :
    Woven "#" (linesOf names depth body) (layoutAll depth (shapes names body)) (Stmt.commentsIn body) := by
  induction body with
  | nil => exact .nil
  | cons s rest ih =>
    rw [linesOf, shapes, layoutAll, Stmt.commentsIn_cons]
    exact (h s mem_cons_self).append (ih fun s hs => h s (mem_cons_of_mem _ hs))

theorem woven_linesOfBody {body : List Stmt}
    (h : ∀ s ∈ body, Woven "#" (lines names depth s) (layout depth (shape names s)) s.comments) :
    Woven "#" (linesOfBody names depth body) (layoutBody depth (shapes names body)) (Stmt.commentsIn body) := by
  cases body with
  | nil => exact .plain _ .nil
  | cons s rest => exact woven_linesOf h

theorem woven_linesOfBranches {branches : List (Expr × List Stmt)} (word : String)
    (h : ∀ branch ∈ branches, ∀ s ∈ branch.2,
      Woven "#" (lines names (depth + 1) s) (layout (depth + 1) (shape names s)) s.comments) :
    Woven "#" (linesOfBranches names depth word branches) (layoutClauses depth (branchShapes names word branches))
      ((Stmt.allInBranches branches).flatMap fun s => s.attrs.comment.toList) := by
  induction branches generalizing word with
  | nil => exact .nil
  | cons branch rest ih =>
    obtain ⟨condition, body⟩ := branch
    have hbody := woven_linesOfBody (h _ mem_cons_self)
    have hrest := ih "elif " fun branch hbranch => h branch (mem_cons_of_mem _ hbranch)
    rw [linesOfBranches, branchShapes, layoutClauses, Stmt.allInBranches, List.flatMap_append]
    exact .plain _ (hbody.append hrest)

theorem woven_linesOfOtherwise {otherwise : Option (List Stmt)} (h : ∀ body, otherwise = some body → ∀ s ∈ body,
      Woven "#" (lines names (depth + 1) s) (layout (depth + 1) (shape names s)) s.comments) :
    Woven "#" (linesOfOtherwise names depth otherwise) (layoutClauses depth (lastShapes names otherwise))
      ((Stmt.allInOtherwise otherwise).flatMap fun s => s.attrs.comment.toList) := by
  cases otherwise with
  | none => exact .nil
  | some body =>
    rw [linesOfOtherwise, lastShapes, layoutClauses, layoutClauses, Stmt.allInOtherwise, List.append_nil]
    exact .plain _ (woven_linesOfBody (h body rfl))

theorem woven_loop {body : List Stmt} {header : String} (hheader : header ≠ "") (attrs : Attributes)
    (h : ∀ s ∈ body, Woven "#" (lines names (depth + 1) s) (layout (depth + 1) (shape names s)) s.comments) :
    Woven "#" (remarks depth attrs ++ { depth, text := header } :: linesOfBody names (depth + 1) body)
      (layout depth (.compound [(header, shapes names body)])) (attrs.comment.toList ++ Stmt.commentsIn body) := by
  rw [layout, layoutClauses, layoutClauses, List.append_nil]
  exact .headed (l := { depth, text := header }) _ hheader (woven_linesOfBody h)

theorem woven_lines (s : Stmt) (h : s.Everywhere Stmt.Writable) (depth : Nat) :
    Woven "#" (lines names depth s) (layout depth (shape names s)) s.comments := by
  induction s generalizing depth with
  | choose branches otherwise attrs ih ih' =>
    obtain ⟨hhere, hbranches, hotherwise⟩ := Stmt.everywhere_choose.mp h
    have hlast : Woven "#" (linesOfOtherwise names depth otherwise) (layoutClauses depth (lastShapes names otherwise))
        ((Stmt.allInOtherwise otherwise).flatMap fun s => s.attrs.comment.toList) :=
      woven_linesOfOtherwise fun body hbody s hs => ih' body hbody s hs (hotherwise body hbody s hs) (depth + 1)
    cases branches with
    | nil => exact absurd rfl (hhere.branched otherwise attrs)
    | cons branch rest =>
      obtain ⟨condition, body⟩ := branch
      have hbody := woven_linesOfBody fun s hs =>
        ih (condition, body) mem_cons_self s hs (hbranches _ mem_cons_self s hs) (depth + 1)
      have hrest := woven_linesOfBranches "elif " fun branch hbranch s hs =>
        ih branch (mem_cons_of_mem _ hbranch) s hs (hbranches _ (mem_cons_of_mem _ hbranch) s hs) (depth + 1)
      have hall := Woven.headed (l := { depth, text := "if " ++ expr names condition ++ ":" }) attrs.comment (by simp)
        ((hbody.append hrest).append hlast)
      simpa [remarks, layoutClauses_append, Stmt.comments, Stmt.commentsIn, Stmt.all, Stmt.allInBranches, Stmt.attrs]
        using hall
  | repeat' times body attrs ih =>
    rw [lines, shape, Stmt.comments, Stmt.all, flatMap_cons]
    exact woven_loop (by simp) attrs fun s hs => ih s hs ((Stmt.everywhere_repeat.mp h).2 s hs) (depth + 1)
  | loop mode condition body attrs ih =>
    rw [lines, shape, Stmt.comments, Stmt.all, flatMap_cons]
    have hheader : loopHeader mode (expr names condition) ≠ "" := by cases mode <;> simp [loopHeader]
    exact woven_loop hheader attrs fun s hs => ih s hs ((Stmt.everywhere_loop.mp h).2 s hs) (depth + 1)
  | count counter first last step body attrs ih =>
    rw [lines, shape, Stmt.comments, Stmt.all, flatMap_cons]
    exact woven_loop (by simp) attrs fun s hs => ih s hs ((Stmt.everywhere_count.mp h).2 s hs) (depth + 1)
  | forEach item list body attrs ih =>
    rw [lines, shape, Stmt.comments, Stmt.all, flatMap_cons]
    exact woven_loop (by simp) attrs fun s hs => ih s hs ((Stmt.everywhere_forEach.mp h).2 s hs) (depth + 1)
  | flow choice attrs =>
    rw [lines, shape, layout, Stmt.comments, Stmt.all, flatMap_cons]
    exact .headed (l := { depth, text := flowWord choice }) _ (by cases choice <;> simp [flowWord]) .nil
  | _ =>
    rw [lines, shape, layout, Stmt.comments, Stmt.all, flatMap_cons]
    exact .headed (l := Line.mk depth _) _ (by simp) .nil

/-! ## Forms that can be read -/

def continues (text : String) : Bool :=
  text.toList.takeWhile Source.isIdentChar ∈ [['e', 'l', 'i', 'f'], ['e', 'l', 's', 'e']]

/-- The lines before those of the program that can be asked for. -/
def preludeTexts : List String :=
  ["import math", "import time", "def blockly_range(start, stop, step):"]

/-- The text of a line without a body. -/
structure IsSimple (text : String) : Prop where
  writes : alphabet.Writes text
  opens : Opens text
  fresh : text ∉ "pass" :: preludeTexts

/-- The text of a line with a body. -/
structure IsHeader (text : String) : Prop where
  writes : ∃ inner, alphabet.Writes inner ∧ text = inner ++ ":"
  opens : Opens text
  fresh : text ∉ preludeTexts

/-- The first clause begins a statement, and the others go on with it. -/
inductive Readable : Shape → Prop
  | simple {text : String} (h : IsSimple text) : Readable (.simple text)
  | compound {header : String} {body : List Shape} {rest : List (String × List Shape)} (hheader : IsHeader header)
    (hfirst : continues header = false) (hrest : ∀ clause ∈ rest, IsHeader clause.1 ∧ continues clause.1 = true)
    (hbody : ∀ s ∈ body, Readable s) (hbodies : ∀ clause ∈ rest, ∀ s ∈ clause.2, Readable s) :
    Readable (.compound ((header, body) :: rest))

/-! ## Texts of statements -/

theorem append_notMem {opening : String} {texts : List String} (text : String)
    (h : ∀ t ∈ texts, ¬opening.toList <+: t.toList) : opening ++ text ∉ texts := by
  intro hmem
  apply h _ hmem
  rw [String.toList_append]
  exact List.prefix_append _ _

theorem opens_parens (s : String) : Opens (parens s) :=
  Opens.append (Opens.append (s := "(") rfl s) ")"

theorem opens_grouped (e : Expr) (h : Opens s) : Opens (grouped e s) := by
  unfold grouped
  split
  · exact opens_parens s
  · exact opens_parens s
  · exact h

theorem opens_leftOperand (op : BinaryOp) (h : Opens s) : Opens (leftOperand op s) := by
  unfold leftOperand
  split
  · exact opens_parens s
  · exact h

theorem opens_unary (op : UnaryOp) (s : String) : Opens (unary op s) := by
  cases op with
  | not => exact Opens.append (s := "not ") rfl s
  | neg => exact Opens.append (s := "-") rfl s
  | pow10 => exact Opens.append (s := "10 ** ") rfl s
  | abs => exact Opens.append (Opens.append (s := "abs(") rfl s) ")"
  | root => exact Opens.append (Opens.append (s := "math.sqrt(") rfl s) ")"
  | ln => exact Opens.append (Opens.append (s := "math.log(") rfl s) ")"
  | log10 => exact Opens.append (Opens.append (s := "math.log10(") rfl s) ")"
  | exp => exact Opens.append (Opens.append (s := "math.exp(") rfl s) ")"

theorem opens_sum {items : List String} (h : ∀ item ∈ items, Opens item) : Opens (sum items) := by
  cases items with
  | nil => rfl
  | cons item rest =>
    have hitem := h item mem_cons_self
    have hsum : sum (item :: rest) = " + ".intercalate (item :: rest) := rfl
    rw [hsum]
    cases rest with
    | nil => rwa [String.intercalate_singleton]
    | cons other rest =>
      rw [String.intercalate_cons_cons]
      exact (hitem.append _).append _

theorem opens_joined (e : Expr) (h : Opens s) : Opens (joined e s) := by
  unfold joined
  split
  · exact h
  · exact Opens.append (Opens.append (s := "str(") rfl s) ")"

variable (hnames : ∀ name, Source.IsIdentifier (names.get name))
include hnames

theorem opens_expr (e : Expr) (h : e.Everywhere Writable) : Opens (expr names e) := by
  induction e with
  | var v =>
    rw [expr]
    exact Source.opens_of_isIdentifier (hnames v.name)
  | number literal value attrs =>
    have hvalue := h.here.denotes rfl
    rw [expr, Source.numberLiteral_eq hvalue]
    split
    · exact Opens.append (s := "-") rfl _
    · exact Source.opens_of_isNumeral (Source.isNumeral_numeral hvalue)
  | boolean value attrs =>
    rw [expr]
    cases value <;> rfl
  | text value attrs =>
    rw [expr]
    exact Source.opens_iff.mpr ⟨_, _, Source.toList_quote value, by decide⟩
  | binary op left right attrs ihl ihr =>
    obtain ⟨-, hleft, -⟩ := Expr.everywhere_binary.mp h
    rw [expr]
    exact ((((opens_leftOperand op (opens_grouped left (ihl hleft))).append _).append _).append _).append _
  | unary op operand attrs ih =>
    rw [expr]
    exact opens_unary op _
  | list element items attrs ih =>
    rw [expr]
    exact Opens.append (Opens.append (s := "[") rfl _) _
  | length operand attrs ih =>
    rw [expr]
    exact Opens.append (Opens.append (s := "len(") rfl _) _
  | join items attrs ih =>
    rw [expr, joinedItems_eq_map]
    apply opens_sum
    intro item hitem
    obtain ⟨e, he, rfl⟩ := List.mem_map.mp hitem
    exact opens_joined e (ih e he ((Expr.everywhere_join.mp h).2 e he))

theorem isSimple_assign (target : Var) {value : Expr} (h : value.Everywhere Writable) :
    IsSimple (names.get target.name ++ " = " ++ expr names value) := by
  have hname := hnames target.name
  refine ⟨?_, ((Source.opens_of_isIdentifier hname).append _).append _, ?_⟩
  · exact (Alphabet.isSign_of_isIdentifier hname).writes.separated (.of rfl) (writes_expr hnames value h)
  · intro hmem
    have hassigns : '=' ∈ (names.get target.name ++ " = " ++ expr names value).toList := by simp
    have hnone : ∀ t ∈ "pass" :: preludeTexts, '=' ∉ t.toList := by decide
    exact hnone _ hmem hassigns

theorem isSimple_wait {time : Expr} (h : time.Everywhere Writable) :
    IsSimple ("time.sleep(" ++ grouped time (expr names time) ++ " / 1000)") := by
  have htail : " / 1000)" = " / " ++ "1000)" := rfl
  have hopening := Alphabet.IsSign.append_writes (A := alphabet) (s := "time.sleep(") (.of rfl)
    (writes_grouped time (writes_expr hnames time h))
  refine ⟨?_, (Opens.append (s := "time.sleep(") rfl _).append _, ?_⟩
  · rw [htail, ← append_assoc]
    exact hopening.divided (Alphabet.IsSign.of rfl).writes
  · rw [append_assoc]
    exact append_notMem _ (by decide)

theorem isSimple_print {text : Expr} (h : text.Everywhere Writable) : IsSimple ("print(" ++ expr names text ++ ")") := by
  refine ⟨(writes_expr hnames text h).enclosed (.of rfl) (.of rfl), (Opens.append (s := "print(") rfl _).append _, ?_⟩
  rw [append_assoc]
  exact append_notMem _ (by decide)

theorem writes_range {first last step : Expr} (hfirst : first.Everywhere Writable) (hlast : last.Everywhere Writable)
    (hstep : step.Everywhere Writable) : alphabet.Writes (range names first last step) := by
  have hcall : ∀ {opening a b c : String}, alphabet.IsSign opening → alphabet.Writes a → alphabet.Writes b →
      alphabet.Writes c → alphabet.Writes (opening ++ a ++ ", " ++ b ++ ", " ++ c ++ ")") := by
    intro opening a b c hopening ha hb hc
    have hpair : alphabet.Writes (opening ++ a ++ ", " ++ b) := (hopening.append_writes ha).separated (.of rfl) hb
    exact (hpair.separated (.of rfl) hc).append_sign (.of rfl)
  unfold range
  split
  · exact hcall (.of rfl) (Alphabet.writes_intText _) (Alphabet.writes_intText _) (Alphabet.writes_intText _)
  · exact hcall (.of rfl) (writes_expr hnames first hfirst) (writes_expr hnames last hlast)
      (writes_expr hnames step hstep)

omit hnames

theorem isSimple_flow (choice : Flow) : IsSimple (flowWord choice) := by
  cases choice with
  | «break» => exact ⟨(Alphabet.IsSign.of rfl).writes, rfl, by decide⟩
  | «continue» => exact ⟨(Alphabet.IsSign.of rfl).writes, rfl, by decide⟩

theorem isHeader_of {opening : String} (hopening : alphabet.IsSign opening) (hopens : Opens opening)
    (htext : alphabet.Writes text) (hfresh : ∀ t ∈ preludeTexts, ¬opening.toList <+: t.toList := by decide) :
    IsHeader (opening ++ text ++ ":") := by
  refine ⟨⟨_, hopening.append_writes htext, rfl⟩, (hopens.append _).append _, ?_⟩
  rw [append_assoc]
  exact append_notMem _ hfresh

theorem continues_append {opening : String} (text : String)
    (h : (opening.toList.takeWhile Source.isIdentChar).length ≠ opening.toList.length) :
    continues (opening ++ text) = continues opening := by
  unfold continues
  rw [String.toList_append, List.takeWhile_append, if_neg h]

theorem isHeader_loopHeader (mode : LoopMode) {condition : String} (h : alphabet.Writes condition) :
    IsHeader (loopHeader mode condition) ∧ continues (loopHeader mode condition) = false := by
  cases mode with
  | «while» =>
    refine ⟨isHeader_of (.of rfl) rfl h, ?_⟩
    rw [loopHeader, append_assoc, continues_append _ (by decide)]
    rfl
  | «until» =>
    have htail : "):" = ")" ++ ":" := rfl
    have htext : loopHeader .until condition = "while not (" ++ (condition ++ ")") ++ ":" := by
      rw [loopHeader, htail]
      simp only [append_assoc]
    rw [htext]
    refine ⟨isHeader_of (.of rfl) rfl (h.append_sign (.of rfl)), ?_⟩
    rw [append_assoc, continues_append _ (by decide)]
    rfl

theorem isHeader_branch {word : String} (hword : word = "if " ∨ word = "elif ") {condition : String}
    (h : alphabet.Writes condition) :
    IsHeader (word ++ condition ++ ":") ∧ continues (word ++ condition ++ ":") = decide (word = "elif ") := by
  rw [append_assoc]
  rcases hword with rfl | rfl
  · refine ⟨?_, ?_⟩
    · rw [← append_assoc]
      exact isHeader_of (.of rfl) rfl h
    · rw [continues_append _ (by decide)]
      rfl
  · refine ⟨?_, ?_⟩
    · rw [← append_assoc]
      exact isHeader_of (.of rfl) rfl h
    · rw [continues_append _ (by decide)]
      rfl

theorem isHeader_else : IsHeader "else:" ∧ continues "else:" = true :=
  ⟨⟨⟨"else", (Alphabet.IsSign.of rfl).writes, rfl⟩, rfl, by decide⟩, rfl⟩

theorem isHeader_for {name list : String} (hname : Source.IsIdentifier name) (hlist : alphabet.Writes list) :
    IsHeader ("for " ++ name ++ " in " ++ list ++ ":") ∧ continues ("for " ++ name ++ " in " ++ list ++ ":") = false := by
  have hitem : alphabet.Writes (name ++ " in " ++ list) :=
    (Alphabet.isSign_of_isIdentifier hname).writes.separated (.of rfl) hlist
  have htext : "for " ++ name ++ " in " ++ list ++ ":" = "for " ++ (name ++ " in " ++ list) ++ ":" := by
    simp only [append_assoc]
  rw [htext]
  refine ⟨isHeader_of (.of rfl) rfl hitem, ?_⟩
  rw [append_assoc, continues_append _ (by decide)]
  rfl

theorem isHeader_repeat {times : String} (h : alphabet.Writes times) :
    IsHeader ("for _ in range(int(" ++ times ++ ")):") ∧ continues ("for _ in range(int(" ++ times ++ ")):") = false := by
  have htail : ")):" = "))" ++ ":" := rfl
  have htext : "for _ in range(int(" ++ times ++ ")):" = "for _ in range(int(" ++ (times ++ "))") ++ ":" := by
    rw [htail]
    simp only [append_assoc]
  rw [htext]
  refine ⟨isHeader_of (.of rfl) rfl (h.append_sign (.of rfl)), ?_⟩
  rw [append_assoc, continues_append _ (by decide)]
  rfl

/-! ## Statements that can be read -/

theorem readable_loop {header : String} (hheader : IsHeader header ∧ continues header = false)
    (hbody : ∀ s ∈ body, Readable s) : Readable (.compound [(header, body)]) :=
  .compound hheader.1 hheader.2 (List.forall_mem_nil _) hbody (List.forall_mem_nil _)

theorem readable_shapes {body : List Stmt} (h : ∀ s ∈ body, Readable (shape names s)) :
    ∀ t ∈ shapes names body, Readable t := by
  intro t ht
  rw [shapes_eq_map] at ht
  obtain ⟨s, hs, rfl⟩ := List.mem_map.mp ht
  exact h s hs

theorem exists_of_mem_branchShapes {branches : List (Expr × List Stmt)} {clause : String × List Shape}
    (h : clause ∈ branchShapes names "elif " branches) :
    ∃ branch ∈ branches, clause = ("elif " ++ expr names branch.1 ++ ":", shapes names branch.2) := by
  induction branches with
  | nil => simp at h
  | cons branch rest ih =>
    obtain ⟨condition, body⟩ := branch
    rw [branchShapes] at h
    rcases List.mem_cons.mp h with rfl | h
    · exact ⟨_, mem_cons_self, rfl⟩
    · obtain ⟨branch, hbranch, heq⟩ := ih h
      exact ⟨branch, mem_cons_of_mem _ hbranch, heq⟩

theorem exists_of_mem_lastShapes {otherwise : Option (List Stmt)} {clause : String × List Shape}
    (h : clause ∈ lastShapes names otherwise) :
    ∃ body, otherwise = some body ∧ clause = ("else:", shapes names body) := by
  cases otherwise with
  | none => simp at h
  | some body => exact ⟨body, rfl, by simpa using h⟩

theorem readable_shape (hnames : ∀ name, Source.IsIdentifier (names.get name)) (s : Stmt)
    (h : s.Everywhere Stmt.Writable) : Readable (shape names s) := by
  induction s with
  | assign target value attrs =>
    rw [shape]
    exact .simple (isSimple_assign hnames target (h.here.exprs value mem_cons_self))
  | choose branches otherwise attrs ih ih' =>
    obtain ⟨hhere, hbranches, hotherwise⟩ := Stmt.everywhere_choose.mp h
    have hbody : ∀ branch ∈ branches, ∀ t ∈ shapes names branch.2, Readable t := fun branch hbranch =>
      readable_shapes fun s hs => ih branch hbranch s hs (hbranches branch hbranch s hs)
    have hcondition : ∀ branch ∈ branches, alphabet.Writes (expr names branch.1) := fun branch hbranch =>
      writes_expr hnames _ (hhere.exprs _ (List.mem_map_of_mem hbranch))
    cases branches with
    | nil => exact absurd rfl (hhere.branched otherwise attrs)
    | cons branch rest =>
      obtain ⟨condition, body⟩ := branch
      have hfirst := isHeader_branch (.inl rfl) (hcondition _ mem_cons_self)
      rw [shape, branchShapes, List.cons_append]
      refine .compound hfirst.1 hfirst.2 ?_ (hbody _ mem_cons_self) ?_
      · intro clause hclause
        rcases mem_append.mp hclause with hclause | hclause
        · obtain ⟨branch, hbranch, rfl⟩ := exists_of_mem_branchShapes hclause
          exact isHeader_branch (.inr rfl) (hcondition branch (mem_cons_of_mem _ hbranch))
        · obtain ⟨body, -, rfl⟩ := exists_of_mem_lastShapes hclause
          exact isHeader_else
      · intro clause hclause
        rcases mem_append.mp hclause with hclause | hclause
        · obtain ⟨branch, hbranch, rfl⟩ := exists_of_mem_branchShapes hclause
          exact hbody branch (mem_cons_of_mem _ hbranch)
        · obtain ⟨body, hbody, rfl⟩ := exists_of_mem_lastShapes hclause
          exact readable_shapes fun s hs => ih' body hbody s hs (hotherwise body hbody s hs)
  | repeat' times body attrs ih =>
    obtain ⟨hhere, hbody⟩ := Stmt.everywhere_repeat.mp h
    have htimes := writes_expr hnames times (hhere.exprs times mem_cons_self)
    rw [shape]
    exact readable_loop (isHeader_repeat htimes) (readable_shapes fun s hs => ih s hs (hbody s hs))
  | loop mode condition body attrs ih =>
    obtain ⟨hhere, hbody⟩ := Stmt.everywhere_loop.mp h
    have hcondition := writes_expr hnames condition (hhere.exprs condition mem_cons_self)
    rw [shape]
    exact readable_loop (isHeader_loopHeader mode hcondition) (readable_shapes fun s hs => ih s hs (hbody s hs))
  | count counter first last step body attrs ih =>
    obtain ⟨hhere, hbody⟩ := Stmt.everywhere_count.mp h
    have hrange := writes_range hnames (hhere.exprs first (by simp [Stmt.exprs]))
      (hhere.exprs last (by simp [Stmt.exprs])) (hhere.exprs step (by simp [Stmt.exprs]))
    rw [shape]
    exact readable_loop (isHeader_for (hnames _) hrange) (readable_shapes fun s hs => ih s hs (hbody s hs))
  | forEach item list body attrs ih =>
    obtain ⟨hhere, hbody⟩ := Stmt.everywhere_forEach.mp h
    have hlist := writes_expr hnames list (hhere.exprs list mem_cons_self)
    rw [shape]
    exact readable_loop (isHeader_for (hnames _) hlist) (readable_shapes fun s hs => ih s hs (hbody s hs))
  | flow choice attrs =>
    rw [shape]
    exact .simple (isSimple_flow choice)
  | wait time attrs =>
    rw [shape]
    exact .simple (isSimple_wait hnames (h.here.exprs time mem_cons_self))
  | print text attrs =>
    rw [shape]
    exact .simple (isSimple_print hnames (h.here.exprs text mem_cons_self))

/-! ## Lines of code -/

/-- A line of code: a text without line breaks that begins with no blank, and that is none before the program. -/
structure IsCode (text : String) : Prop where
  writes : alphabet.Writes text ∨ ∃ inner, alphabet.Writes inner ∧ text = inner ++ ":"
  opens : Opens text
  fresh : text ∉ preludeTexts

theorem IsSimple.isCode (h : IsSimple text) : IsCode text :=
  ⟨.inl h.writes, h.opens, List.not_mem_of_not_mem_cons h.fresh⟩

theorem IsHeader.isCode (h : IsHeader text) : IsCode text :=
  ⟨.inr h.writes, h.opens, h.fresh⟩

theorem IsCode.unbroken (h : IsCode text) : ∀ c ∈ text.toList, c ≠ '\n' ∧ c ≠ '\r' := by
  rcases h.writes with hwrites | ⟨inner, hwrites, rfl⟩
  · exact Source.Assembled.unbroken hwrites
  · intro c hc
    rw [String.toList_append] at hc
    rcases mem_append.mp hc with hc | hc
    · exact Source.Assembled.unbroken hwrites c hc
    · have hcolon : c = ':' := by simpa using hc
      subst hcolon
      decide

theorem isCode_pass : IsCode "pass" :=
  ⟨.inl (Alphabet.IsSign.of rfl).writes, rfl, by decide⟩

theorem isCode_layoutAll (h : ∀ s ∈ body, ∀ l ∈ layout depth s, IsCode l.text) :
    ∀ l ∈ layoutAll depth body, IsCode l.text := by
  induction body with
  | nil => simp
  | cons s rest ih =>
    intro l hl
    rw [layoutAll] at hl
    rcases mem_append.mp hl with hl | hl
    · exact h s mem_cons_self l hl
    · exact ih (fun s hs => h s (mem_cons_of_mem _ hs)) l hl

theorem isCode_layoutBody (h : ∀ s ∈ body, ∀ l ∈ layout depth s, IsCode l.text) :
    ∀ l ∈ layoutBody depth body, IsCode l.text := by
  cases body with
  | nil =>
    intro l hl
    rw [layoutBody] at hl
    rw [List.mem_singleton.mp hl]
    exact isCode_pass
  | cons s rest => exact isCode_layoutAll h

theorem isCode_layoutClauses {clauses : List (String × List Shape)} (hheaders : ∀ clause ∈ clauses, IsHeader clause.1)
    (h : ∀ clause ∈ clauses, ∀ s ∈ clause.2, ∀ l ∈ layout (depth + 1) s, IsCode l.text) :
    ∀ l ∈ layoutClauses depth clauses, IsCode l.text := by
  induction clauses with
  | nil => simp
  | cons clause rest ih =>
    obtain ⟨header, body⟩ := clause
    intro l hl
    rw [layoutClauses] at hl
    rcases List.mem_cons.mp hl with rfl | hl
    · exact (hheaders _ mem_cons_self).isCode
    rcases mem_append.mp hl with hl | hl
    · exact isCode_layoutBody (h _ mem_cons_self) l hl
    · exact ih (fun clause hclause => hheaders clause (mem_cons_of_mem _ hclause))
        (fun clause hclause => h clause (mem_cons_of_mem _ hclause)) l hl

theorem isCode_layout {s : Shape} (h : Readable s) (depth : Nat) : ∀ l ∈ layout depth s, IsCode l.text := by
  induction h generalizing depth with
  | simple h =>
    intro l hl
    rw [layout] at hl
    rw [List.mem_singleton.mp hl]
    exact h.isCode
  | compound hheader hfirst hrest hbody hbodies ih ih' =>
    rw [layout]
    apply isCode_layoutClauses
    · exact List.forall_mem_cons.mpr ⟨hheader, fun clause hclause => (hrest clause hclause).1⟩
    · exact List.forall_mem_cons.mpr ⟨fun s hs => ih s hs (depth + 1),
        fun clause hclause s hs => ih' clause hclause s hs (depth + 1)⟩

/-! ## Roots -/

def rootShapes (names : Names) : Root → List Shape
  | .statements body => shapes names body
  | .value e => [.simple (expr names e)]

def rootLayout (names : Names) (root : Root) : List Line :=
  layoutAll 0 (rootShapes names root)

theorem rootShapes_ne_nil (h : root.Writable) : rootShapes names root ≠ [] := by
  cases root with
  | statements body =>
    rw [rootShapes, shapes_eq_map]
    intro hnil
    exact h.ne_nil (by rw [List.map_eq_nil_iff.mp hnil])
  | value e => simp [rootShapes]

theorem woven_rootLines (h : root.Writable) :
    Woven "#" (rootLines names root) (rootLayout names root) root.comments := by
  cases root with
  | statements body =>
    have hwoven : Woven "#" (linesOfBody names 0 body) (layoutBody 0 (shapes names body)) (Stmt.commentsIn body) :=
      woven_linesOfBody fun s hs => woven_lines s (h.everywhere hs) 0
    have hne : shapes names body ≠ [] := rootShapes_ne_nil h
    rw [layoutBody_of_ne_nil 0 hne] at hwoven
    exact hwoven
  | value e => exact .refl _

theorem head?_sum_joinedItems (names : Names) (items : List Expr) :
    (sum (joinedItems names items)).toList.head? ≠ some 'i' := by
  cases items with
  | nil => simp [joinedItems, sum]
  | cons e rest =>
    obtain ⟨c, hc, hhead⟩ : ∃ c, c ≠ 'i' ∧ (joined e (expr names e)).toList.head? = some c := by
      unfold joined
      split
      · exact ⟨'\x22', by decide, by simp [expr, Source.toList_quote]⟩
      · exact ⟨'s', by decide, by simp⟩
    have hsum : sum (joinedItems names (e :: rest)) =
        " + ".intercalate (joined e (expr names e) :: joinedItems names rest) := by
      rw [joinedItems, sum]
      rfl
    rw [hsum]
    cases joinedItems names rest with
    | nil => simpa [String.intercalate_singleton, hhead] using hc
    | cons other others => simpa [String.intercalate_cons_cons, List.head?_append, hhead] using hc

variable (hnames : ∀ name, Source.IsIdentifier (names.get name))
include hnames

theorem expr_ne_import {e : Expr} (h : e.Everywhere Writable) (hhead : s.toList.head? = some 'i')
    (hblanks : s.toList.count ' ' = 1) : expr names e ≠ s := by
  have hblank : ' ' ∈ s.toList := List.count_pos_iff.mp (by omega)
  rintro rfl
  cases e with
  | var v =>
    rw [expr] at hblank
    exact absurd ((hnames v.name).chars ' ' hblank) (by decide)
  | number literal value attrs =>
    have hvalue := h.here.denotes rfl
    have hnumber := Source.isNumberChar_of_isNumeral (Source.isNumeral_numeral hvalue)
    have hnone : ' ' ∉ (Source.numeral literal value).toList := fun hmem => absurd (hnumber ' ' hmem) (by decide)
    rw [expr, Source.numberLiteral_eq hvalue] at hblank
    split at hblank <;> simp [hnone] at hblank
  | boolean value attrs => cases value <;> simp [expr] at hhead
  | text value attrs => simp [expr, Source.toList_quote] at hhead
  | binary op left right attrs =>
    rw [expr] at hblanks
    simp [List.count_append] at hblanks
    omega
  | unary op operand attrs => cases op <;> simp [expr, unary] at hhead
  | list element items attrs => simp [expr] at hhead
  | length operand attrs => simp [expr] at hhead
  | join items attrs =>
    rw [expr] at hhead
    exact head?_sum_joinedItems names items hhead

theorem isCode_value {e : Expr} (h : e.Everywhere Writable) : IsCode (expr names e) := by
  have hwrites := writes_expr hnames e h
  refine ⟨.inl hwrites, opens_expr hnames e h, ?_⟩
  simp only [preludeTexts, List.mem_cons, List.not_mem_nil, or_false, not_or]
  refine ⟨expr_ne_import hnames h (by decide) (by decide), expr_ne_import hnames h (by decide) (by decide), ?_⟩
  -- No value ends in a colon.
  intro heq
  rw [heq] at hwrites
  rcases Source.Assembled.getLast? hwrites rfl with hplain | hquote
  · exact absurd hplain (by decide)
  · exact absurd hquote (by decide)

theorem isCode_rootLayout (h : root.Writable) : ∀ l ∈ rootLayout names root, IsCode l.text := by
  cases root with
  | statements body =>
    refine isCode_layoutAll fun t ht => isCode_layout (readable_shapes (fun s hs => ?_) t ht) 0
    exact readable_shape hnames s (h.everywhere hs)
  | value e =>
    intro l hl
    have hl : l = { depth := 0, text := expr names e } := by simpa [rootLayout, rootShapes] using hl
    rw [hl]
    exact isCode_value hnames (h.exprs e e.mem_parts_self)

end Blockwork.Python
