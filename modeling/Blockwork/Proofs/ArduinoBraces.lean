import Blockwork.Proofs.ArduinoForms

/-! # Reading the braces of sketches

A sketch shows by its braces which statements lie in which. Here a sketch is cut into lines, and the statements are
read back from nothing but the lines that open a body, close it, or close one and open the next.
-/

namespace Blockwork

set_option autoImplicit false

namespace Arduino

/-! ## Reading lines -/

/-- What has been read of a body: the forms at its end, and the clauses that come after it. -/
structure Frame where
  items : List Shape
  later : List (String × List Shape)

def readLine? (text : String) (frames : List Frame) : Option (List Frame) :=
  match lineKind text, frames with
  | .simple, ⟨items, later⟩ :: outer => some (⟨.simple text :: items, later⟩ :: outer)
  | .closes, frames => some (⟨[], []⟩ :: frames)
  | .reopens, ⟨items, later⟩ :: outer => some (⟨[], (text, items) :: later⟩ :: outer)
  | .opens, ⟨items, later⟩ :: ⟨items', later'⟩ :: outer =>
    some (⟨.compound ((text, items) :: later) :: items', later'⟩ :: outer)
  | _, _ => none

def readTexts? : List String → Option (List Frame)
  | [] => some [⟨[], []⟩]
  | text :: rest => (readTexts? rest).bind (readLine? text)

/-! ## Reading forms back -/

variable {items : List Shape} {later : List (String × List Shape)} {frames outer : List Frame} {more : List String}

def Reads (t : Shape) : Prop :=
  ∀ {depth : Nat} {items : List Shape} {later : List (String × List Shape)} {outer : List Frame} {more : List String},
    readTexts? more = some (⟨items, later⟩ :: outer) →
      readTexts? ((braces depth t).map Line.text ++ more) = some (⟨t :: items, later⟩ :: outer)

theorem isLine_closing (depth : Nat) : IsLine .closes (closing depth).text := by
  have hsign : alphabet.IsSign "\x7d" := .of rfl
  exact ⟨hsign.writes, by simp [closing], rfl⟩

def IsCode (P : String → Prop) (l : Line) : Prop :=
  ∃ kind, IsLine kind l.text ∧ (kind = .simple → P l.text)

variable {P : String → Prop} {body : List Shape} {depth : Nat}

theorem isCode_bracesAll (h : ∀ t ∈ body, ∀ l ∈ braces depth t, IsCode P l) : ∀ l ∈ bracesAll depth body, IsCode P l := by
  induction body with
  | nil => exact List.forall_mem_nil _
  | cons t rest ih =>
    rw [bracesAll]
    exact List.forall_mem_append.mpr ⟨h t List.mem_cons_self, ih fun t ht => h t (List.mem_cons_of_mem _ ht)⟩

theorem isCode_bracesClauses {clauses : List (String × List Shape)}
    (hclauses : ∀ clause ∈ clauses, IsCode P { depth, text := clause.1 })
    (hbodies : ∀ clause ∈ clauses, ∀ t ∈ clause.2, ∀ l ∈ braces (depth + 1) t, IsCode P l) :
    ∀ l ∈ bracesClauses depth clauses, IsCode P l := by
  induction clauses with
  | nil => exact List.forall_mem_nil _
  | cons clause rest ih =>
    have hrest := ih (fun clause h => hclauses clause (List.mem_cons_of_mem _ h))
      (fun clause h => hbodies clause (List.mem_cons_of_mem _ h))
    rw [bracesClauses]
    exact List.forall_mem_cons.mpr ⟨hclauses _ List.mem_cons_self,
      List.forall_mem_append.mpr ⟨isCode_bracesAll (hbodies _ List.mem_cons_self), hrest⟩⟩

theorem isCode_braces {t : Shape} (h : Braced P t) (depth : Nat) : ∀ l ∈ braces depth t, IsCode P l := by
  induction h generalizing depth with
  | simple h hP =>
    rw [braces]
    exact List.forall_mem_singleton.mpr ⟨_, h, fun _ => hP⟩
  | @compound header body rest hheader hrest _ _ ihbody ihrest =>
    rw [braces]
    refine List.forall_mem_append.mpr
      ⟨isCode_bracesClauses ?_ ?_, List.forall_mem_singleton.mpr ⟨_, isLine_closing depth, nofun⟩⟩
    · exact List.forall_mem_cons.mpr ⟨⟨_, hheader, nofun⟩, fun clause hclause => ⟨_, hrest clause hclause, nofun⟩⟩
    · exact List.forall_mem_cons.mpr ⟨fun t ht => ihbody t ht (depth + 1), fun clause hclause t ht =>
        ihrest clause hclause t ht (depth + 1)⟩

end Arduino

namespace Program

open Arduino Source

variable {blocks : List Block} {allowFloating : Bool} {p : Program}

end Program

end Blockwork
