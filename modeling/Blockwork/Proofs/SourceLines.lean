import Mathlib.Data.List.Basic
import Blockwork.Program.Parts
import Blockwork.Source.Layout

/-! # Lines of source texts

* `Shape` is the form of a statement in a source.
* `Line.splitOn_render` says that a source is cut into its lines again where it is cut at line feeds.
* `Line.Woven` says that lines are those of code with comments among them.
-/

namespace Blockwork

set_option autoImplicit false

/-- The form of a statement in a source: a line, or clauses, each with a header and the forms in its body. -/
inductive Shape where
  | simple (text : String)
  | compound (clauses : List (String × List Shape))

namespace Line

variable {unit : Nat}

def chars (unit : Nat) (l : Line) : List Char :=
  List.replicate (unit * l.depth) ' ' ++ l.text.toList

theorem toList_renderOne (unit : Nat) (l : Line) : (renderOne unit l).toList = chars unit l ++ ['\n'] := by
  simp [renderOne, chars]

theorem toList_render (unit : Nat) (lines : List Line) :
    (render unit lines).toList = lines.flatMap fun l => chars unit l ++ ['\n'] := by
  induction lines with
  | nil => rfl
  | cons l lines ih =>
    have hcons : render unit (l :: lines) = renderOne unit l ++ render unit lines := by
      simp [render]
    rw [hcons, String.toList_append, toList_renderOne, ih, List.flatMap_cons]

theorem mem_chars {l : Line} {c : Char} (h : c ∈ chars unit l) : c = ' ' ∨ c ∈ l.text.toList := by
  rcases List.mem_append.mp h with h | h
  · exact .inl (List.eq_of_mem_replicate h)
  · exact .inr h

theorem notMem_chars {l : Line} {c : Char} (hc : c ≠ ' ') (h : c ∉ l.text.toList) : c ∉ chars unit l := by
  intro hmem
  rcases mem_chars hmem with rfl | hmem
  · exact hc rfl
  · exact h hmem

theorem splitOn_render {lines : List Line} (h : ∀ l ∈ lines, '\n' ∉ l.text.toList) (rest : List Char) :
    ((render unit lines).toList ++ rest).splitOn '\n' = lines.map (chars unit) ++ rest.splitOn '\n' := by
  rw [toList_render]
  induction lines with
  | nil => rfl
  | cons l lines ih =>
    have hfirst : '\n' ∉ chars unit l := notMem_chars (by decide) (h l List.mem_cons_self)
    have hrest := ih fun l hl => h l (List.mem_cons_of_mem _ hl)
    rw [List.flatMap_cons, List.append_assoc, List.append_assoc, List.singleton_append,
      List.splitOn_append_cons_self_of_not_mem hfirst, hrest, List.map_cons, List.cons_append]

def blank : Line :=
  { depth := 0, text := "" }

theorem intercalate_render (groups : List (List Line)) :
    "\n".intercalate (groups.map (render unit)) = render unit ([blank].intercalate groups) := by
  have hblank : render unit [blank] = "\n" := by
    simp [render, renderOne, blank]
  have happend : ∀ lines lines', render unit (lines ++ lines') = render unit lines ++ render unit lines' := by
    intro lines lines'
    simp [render]
  induction groups with
  | nil => rfl
  | cons lines rest ih =>
    cases rest with
    | nil => simp [String.intercalate_singleton, List.intercalate_singleton]
    | cons lines' rest =>
      rw [List.map_cons] at ih ⊢
      rw [List.map_cons, String.intercalate_cons_cons, List.intercalate_cons_cons, ih, happend, happend, hblank]

theorem mem_intercalate {groups : List (List Line)} {l : Line} (h : l ∈ [blank].intercalate groups) :
    l = blank ∨ ∃ lines ∈ groups, l ∈ lines := by
  induction groups with
  | nil => cases h
  | cons lines rest ih =>
    cases rest with
    | nil =>
      rw [List.intercalate_singleton] at h
      exact .inr ⟨lines, List.mem_cons_self, h⟩
    | cons lines' rest =>
      rw [List.intercalate_cons_cons] at h
      rcases List.mem_append.mp h with h | h
      · rcases List.mem_append.mp h with h | h
        · exact .inr ⟨lines, List.mem_cons_self, h⟩
        · exact .inl (List.mem_singleton.mp h)
      · rcases ih h with h | ⟨lines, hlines, h⟩
        · exact .inl h
        · exact .inr ⟨lines, List.mem_cons_of_mem _ hlines, h⟩

theorem notMem_render {lines : List Line} {c : Char} (hc : c ≠ ' ' ∧ c ≠ '\n') (h : ∀ l ∈ lines, c ∉ l.text.toList) :
    c ∉ (render unit lines).toList := by
  intro hmem
  rw [toList_render] at hmem
  obtain ⟨l, hl, hmem⟩ := List.mem_flatMap.mp hmem
  rcases List.mem_append.mp hmem with hmem | hmem
  · exact notMem_chars hc.1 (h l hl) hmem
  · exact hc.2 (List.mem_singleton.mp hmem)

/-! ## Comments among lines -/

theorem depth_of_mem_remarks {mark : String} {depth : Nat} {comment : Option Comment} {l : Line}
    (h : l ∈ remarks mark depth comment) : l.depth = depth := by
  unfold remarks at h
  split at h
  · cases h
  · split at h
    · cases h
    · obtain ⟨text, -, rfl⟩ := List.mem_map.mp h
      rfl

/-- The first lines are the second ones with comments among them, each right before a line of code and as deep. -/
inductive Woven (mark : String) : List Line → List Line → List Comment → Prop
  | nil : Woven mark [] [] []
  | plain (l : Line) {lines code : List Line} {comments : List Comment} (h : Woven mark lines code comments) :
    Woven mark (l :: lines) (l :: code) comments
  | remarked (c : Comment) (l : Line) (hl : l.text ≠ "") {lines code : List Line} {comments : List Comment}
    (h : Woven mark lines code comments) :
    Woven mark (remarks mark l.depth (some c) ++ l :: lines) (l :: code) (c :: comments)

namespace Woven

variable {mark : String} {lines code lines' code' : List Line} {comments comments' : List Comment}

theorem append (h : Woven mark lines code comments) (h' : Woven mark lines' code' comments') :
    Woven mark (lines ++ lines') (code ++ code') (comments ++ comments') := by
  induction h with
  | nil => exact h'
  | plain l _ ih => exact .plain l ih
  | remarked c l hl _ ih =>
    rw [List.append_assoc]
    exact .remarked c l hl ih

theorem headed (comment : Option Comment) {l : Line} (hl : l.text ≠ "") (h : Woven mark lines code comments) :
    Woven mark (remarks mark l.depth comment ++ l :: lines) (l :: code) (comment.toList ++ comments) := by
  cases comment with
  | none => exact .plain l h
  | some c => exact .remarked c l hl h

theorem refl (code : List Line) : Woven mark code code [] := by
  induction code with
  | nil => exact .nil
  | cons l code ih => exact .plain l ih

theorem depth_le {depth : Nat} (h : Woven mark lines code comments) (hcode : ∀ l ∈ code, depth ≤ l.depth) :
    ∀ l ∈ lines, depth ≤ l.depth := by
  induction h with
  | nil => exact List.forall_mem_nil _
  | plain l _ ih =>
    obtain ⟨hl, hcode⟩ := List.forall_mem_cons.mp hcode
    exact List.forall_mem_cons.mpr ⟨hl, ih hcode⟩
  | remarked c l _ _ ih =>
    obtain ⟨hl, hcode⟩ := List.forall_mem_cons.mp hcode
    refine List.forall_mem_append.mpr ⟨fun r hr => ?_, List.forall_mem_cons.mpr ⟨hl, ih hcode⟩⟩
    rwa [depth_of_mem_remarks hr]

theorem eq_of_nil (h : Woven mark lines code []) : lines = code := by
  generalize hnil : ([] : List Comment) = comments at h
  induction h with
  | nil => rfl
  | plain l _ ih => rw [ih hnil]
  | remarked => cases hnil

end Woven

end Line

namespace Stmt

def commentsIn (body : List Stmt) : List Comment :=
  (allIn body).flatMap fun s => s.attrs.comment.toList

def comments (s : Stmt) : List Comment :=
  s.all.flatMap fun part => part.attrs.comment.toList

theorem commentsIn_cons (s : Stmt) (rest : List Stmt) : commentsIn (s :: rest) = s.comments ++ commentsIn rest := by
  rw [commentsIn, allIn, List.flatMap_append]
  rfl

end Stmt

def Root.comments (root : Root) : List Comment :=
  root.stmts.flatMap fun s => s.attrs.comment.toList

end Blockwork
