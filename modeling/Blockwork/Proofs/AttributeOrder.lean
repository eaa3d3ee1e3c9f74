import Blockwork.Proofs.Dictionary
import Blockwork.Xml.Reader

/-! # The order of attributes

* `Xml.Ordered` says that the attributes of all elements of a tree have ascending names.
* `Xml.Builder.Ordered` says this of a builder, and every move of a reader keeps it.
* `Xml.ordered_of_parse?` says that every tree that was read is ordered.
-/

namespace Blockwork.Xml

set_option autoImplicit false

/-- The attributes of all elements have ascending names. -/
inductive Ordered : Xml → Prop where
  | text (chars : String) : Ordered (.text chars)
  | element {name : String} {attributes : List (String × String)} {children : List Xml}
    (hattributes : Dict.Sorted attributes) (hchildren : ∀ x ∈ children, Ordered x) :
    Ordered (.element name attributes children)

theorem Ordered.attributes {x : Xml} (h : x.Ordered) : Dict.Sorted x.attributes := by
  cases h with
  | text chars => exact List.Pairwise.nil
  | element hattributes hchildren => exact hattributes

theorem Ordered.children {x : Xml} (h : x.Ordered) : ∀ y ∈ x.children, y.Ordered := by
  cases h with
  | text chars => exact fun y hy => absurd hy List.not_mem_nil
  | element hattributes hchildren => exact hchildren

/-! ## Builders -/

structure OpenElement.Ordered (e : OpenElement) : Prop where
  attributes : Dict.Sorted e.attributes
  children : ∀ x ∈ e.children, x.Ordered

namespace Builder

structure Ordered (b : Builder) : Prop where
  stack : ∀ e ∈ b.stack, e.Ordered
  root : ∀ x, b.root = some x → x.Ordered

variable {b b' : Builder}

theorem Ordered.put {x : Xml} (h : b.Ordered) (hx : x.Ordered) : (b.put x).Ordered := by
  obtain ⟨stack, root, run, isBlank⟩ := b
  cases stack with
  | nil =>
    refine ⟨h.stack, fun y hy => ?_⟩
    cases root with
    | none =>
      cases hy
      exact hx
    | some z => exact h.root y hy
  | cons e rest =>
    obtain ⟨he, hrest⟩ := List.forall_mem_cons.mp h.stack
    refine ⟨List.forall_mem_cons.mpr ⟨⟨he.attributes, ?_⟩, hrest⟩, h.root⟩
    exact List.forall_mem_cons.mpr ⟨hx, he.children⟩

theorem Ordered.pushAll (h : b.Ordered) (cs : List Char) : (cs.foldl push b).Ordered := by
  induction cs generalizing b with
  | nil => exact h
  | cons c cs ih => exact ih ⟨h.stack, h.root⟩

theorem Ordered.endRun (h : b.Ordered) : b.endRun.Ordered := by
  have hb : ({ b with run := [], isBlank := true } : Builder).Ordered := ⟨h.stack, h.root⟩
  unfold Builder.endRun
  split
  · exact hb
  · split
    · exact hb
    · exact hb.put (.text _)

theorem Ordered.openElement? {name : QName} {a : TagAttributes} (h : b.Ordered)
    (hb' : b.openElement? name a = some b') : b'.Ordered := by
  simp only [Builder.openElement?] at hb'
  split at hb'
  · cases hb'
    refine ⟨List.forall_mem_cons.mpr ⟨⟨Dict.sorted_ofList _, ?_⟩, h.stack⟩, h.root⟩
    exact fun x hx => absurd hx List.not_mem_nil
  · cases hb'

theorem Ordered.closeElement? {name : QName} (h : b.Ordered) (hb' : b.closeElement? name = some b') : b'.Ordered := by
  obtain ⟨stack, root, run, isBlank⟩ := b
  cases stack with
  | nil => cases hb'
  | cons e rest =>
    obtain ⟨he, hrest⟩ := List.forall_mem_cons.mp h.stack
    simp only [Builder.closeElement?] at hb'
    split at hb'
    · cases hb'
      refine Ordered.put ⟨hrest, h.root⟩ (.element he.attributes fun x hx => ?_)
      exact he.children x (List.mem_reverse.mp hx)
    · cases hb'

theorem Ordered.cdata (h : b.Ordered) (chars : List Char) : (b.cdata chars).Ordered :=
  Ordered.put ⟨h.stack, h.root⟩ (.text _)

end Builder

/-! ## Readers -/

namespace Reader

variable {r r' : Reader} {t : Token}

def Keeps (result : Option Reader) : Prop :=
  ∀ r, result = some r → r.builder.Ordered

theorem keeps_none : Keeps none := by
  intro r h
  cases h

theorem keeps_some (h : r.builder.Ordered) : Keeps (some r) := by
  rintro r' ⟨⟩
  exact h

theorem keeps_bind {α : Type} {x : Option α} {f : α → Option Reader} (h : ∀ a, x = some a → Keeps (f a)) :
    Keeps (x >>= f) := by
  intro r hr
  obtain ⟨a, ha, hf⟩ := Option.bind_eq_some_iff.mp hr
  exact h a ha r hf

theorem keeps_ite {c : Prop} [Decidable c] {x y : Option Reader} (hx : Keeps x) (hy : Keeps y) :
    Keeps (if c then x else y) := by
  split
  · exact hx
  · exact hy

section Moves

variable (h : r.builder.Ordered)
include h

theorem keeps_expand? (chars : List Char) : Keeps (r.expand? chars) :=
  keeps_ite (keeps_some h) (keeps_ite (keeps_some h) keeps_none)

theorem keeps_readChar? (c : Char) : Keeps (r.readChar? c) :=
  keeps_ite (keeps_ite (keeps_some h) keeps_none) (keeps_ite (keeps_some (h.pushAll [c])) keeps_none)

theorem keeps_readMark? (t : Token) : Keeps (r.readMark? t) := by
  have hend := h.endRun
  unfold readMark?
  split
  · exact keeps_some hend
  · exact keeps_ite keeps_none (keeps_some hend)
  · exact keeps_some hend
  · exact keeps_ite (keeps_some hend) keeps_none
  · exact keeps_some hend
  · exact keeps_ite keeps_none (keeps_some hend)
  · exact keeps_none

theorem keeps_readOutside? (t : Token) : Keeps (r.readOutside? t) := by
  have hmark := keeps_readMark? h t
  cases t with
  | char c => exact keeps_readChar? h c
  | ampersand => exact keeps_ite keeps_none (keeps_some h)
  | remarkClose | tagClose | equals | quote | apostrophe | instructionClose | emptyTagClose | semicolon =>
    exact keeps_ite keeps_none (keeps_some (h.pushAll _))
  | _ => exact hmark

theorem keeps_readMeaning? (name : List Char) : Keeps (r.readMeaning? name) := by
  refine keeps_bind fun meaning _ => ?_
  cases meaning with
  | char c => exact keeps_some (h.pushAll [c])
  | text chars => exact @keeps_expand? (r.moveTo .outside) h chars

theorem keeps_openElement? (name : QName) (a : TagAttributes) (isEmpty : Bool) :
    Keeps (r.openElement? name a isEmpty) := by
  refine keeps_bind fun b hb => ?_
  have hopen := h.openElement? hb
  exact keeps_ite (keeps_bind fun b' hb' => keeps_some (hopen.closeElement? hb')) (keeps_some hopen)

theorem keeps_closeElement? (name : QName) : Keeps (r.closeElement? name) := by
  intro r' hr'
  obtain ⟨b, hb, rfl⟩ := Option.map_eq_some_iff.mp hr'
  exact h.closeElement? hb

theorem keeps_readTagEnd? (name : QName) (a : TagAttributes) (t : Token) : Keeps (r.readTagEnd? name a t) := by
  unfold readTagEnd?
  split
  · exact keeps_openElement? h name a false
  · exact keeps_openElement? h name a true
  · exact keeps_ite (keeps_some h) keeps_none
  · exact keeps_none

theorem keeps_readTagName? (chars : List Char) (t : Token) : Keeps (r.readTagName? chars t) := by
  refine keeps_bind fun progress _ => ?_
  cases progress with
  | more chars => exact keeps_some h
  | done name => exact keeps_ite keeps_none (keeps_readTagEnd? h name .empty t)

theorem keeps_readAttribute? (name : QName) (a : TagAttributes) (chars : List Char) (t : Token) :
    Keeps (r.readAttribute? name a chars t) := by
  refine keeps_bind fun progress _ => ?_
  cases progress with
  | more chars => exact keeps_some h
  | done key => exact keeps_ite keeps_none (keeps_some h)

theorem keeps_readTag? (name : QName) (a : TagAttributes) (place : InTag) (t : Token) :
    Keeps (r.readTag? name a place t) := by
  unfold readTag?
  split
  · exact keeps_ite (keeps_some h) (keeps_readAttribute? h name a [] _)
  · exact keeps_readTagEnd? h name a t
  · exact keeps_readAttribute? h name a _ t
  · exact keeps_some h
  · exact keeps_ite (keeps_some h) keeps_none
  · refine keeps_bind fun progress _ => ?_
    cases progress with
    | more q => exact keeps_some h
    | done value => exact keeps_bind fun a _ => keeps_some h
  · exact keeps_readTagEnd? h name a t
  · exact keeps_none

theorem keeps_readEndTag? (name : QName) (t : Token) : Keeps (r.readEndTag? name t) := by
  unfold readEndTag?
  split
  · exact keeps_closeElement? h name
  · exact keeps_ite (keeps_some h) keeps_none
  · exact keeps_none

theorem keeps_readEndTagName? (chars : List Char) (t : Token) : Keeps (r.readEndTagName? chars t) := by
  refine keeps_bind fun progress _ => ?_
  cases progress with
  | more chars => exact keeps_some h
  | done name => exact keeps_readEndTag? h name t

theorem keeps_readInstruction? (first : Bool) (chars : List Char) (t : Token) :
    Keeps (r.readInstruction? first chars t) := by
  cases t with
  | char c =>
    exact keeps_ite (keeps_some h)
      (keeps_ite (keeps_ite (keeps_some h) (keeps_ite keeps_none (keeps_some h))) keeps_none)
  | instructionClose => exact keeps_ite keeps_none (keeps_some h)
  | _ => exact keeps_none

theorem keeps_readPast? (mark t : Token) : Keeps (r.readPast? mark t) := by
  unfold readPast?
  split
  · exact keeps_ite (keeps_some h) keeps_none
  · refine keeps_some ?_
    split <;> exact h

theorem keeps_readCdata? (chars : List Char) (t : Token) : Keeps (r.readCdata? chars t) := by
  unfold readCdata?
  split
  · exact keeps_some (h.cdata _)
  · exact keeps_ite (keeps_some h) keeps_none
  · exact keeps_none

theorem keeps_readDeclaration? (d : Declaration) (t : Token) : Keeps (r.readDeclaration? d t) := by
  refine keeps_bind fun progress _ => ?_
  cases progress with
  | more state => exact keeps_some h
  | done declared => exact keeps_some h

theorem keeps_readDoctype? (d : Doctype) (t : Token) : Keeps (r.readDoctype? d t) := by
  refine keeps_bind fun outcome _ => ?_
  cases outcome with
  | more d => exact keeps_some h
  | declare name value d => exact keeps_some h
  | expand chars d => exact @keeps_expand? (r.moveTo (.doctype d)) h chars
  | finish => exact keeps_some h

theorem keeps_step (t : Token) : Keeps (r.step t) := by
  unfold step
  split
  · exact keeps_ite (keeps_some h) (keeps_readOutside? h t)
  · exact keeps_readOutside? h t
  · refine keeps_bind fun progress _ => ?_
    cases progress with
    | more name => exact keeps_some h
    | done name => exact keeps_readMeaning? h name
  · exact keeps_readTagName? h _ t
  · exact keeps_readTag? h _ _ _ t
  · exact keeps_readEndTagName? h _ t
  · exact keeps_readEndTag? h _ t
  · exact keeps_readPast? h _ t
  · exact keeps_readCdata? h _ t
  · exact keeps_readInstruction? h _ _ t
  · exact keeps_readPast? h _ t
  · exact keeps_readDeclaration? h _ t
  · exact keeps_readDoctype? h _ t

end Moves

theorem keeps_foldlM {α : Type} {f : Reader → α → Option Reader}
    (hf : ∀ r a, r.builder.Ordered → Keeps (f r a)) (h : r.builder.Ordered) (as : List α) : Keeps (as.foldlM f r) := by
  induction as generalizing r with
  | nil => exact keeps_some h
  | cons a as ih => exact keeps_bind fun r₁ hr₁ => ih (hf r a h r₁ hr₁)

theorem keeps_feed? (h : r.builder.Ordered) (c : Char) : Keeps (r.feed? c) :=
  keeps_bind fun (_, scanner) _ =>
    @keeps_foldlM { r with scanner } _ _ (fun _ t hr => keeps_step hr t) h _

theorem keeps_feedAll? (n : Nat) (h : r.builder.Ordered) (cs : List Char) : Keeps (feedAll? n r cs) := by
  induction n generalizing r cs with
  | zero =>
    refine keeps_foldlM (fun r c hr => ?_) h cs
    intro r' hr'
    exact keeps_feed? hr c r' (Option.filter_eq_some_iff.mp hr').1
  | succ n ih =>
    refine keeps_foldlM (fun r c hr => ?_) h cs
    exact keeps_bind fun r' hr' => @ih { r' with pending := [] } (keeps_feed? hr c r' hr') r'.pending

theorem keeps_read? (h : r.builder.Ordered) (c : Char) : Keeps (r.read? c) :=
  keeps_bind fun _ _ => keeps_foldlM (fun r c hr => @keeps_feedAll? { r with expansions := 0 } _ hr [c]) h _

end Reader

theorem ordered_of_parse? {s : String} {x : Xml} (h : parse? s = some x) : x.Ordered := by
  obtain ⟨r, hr, h⟩ := Option.bind_eq_some_iff.mp h
  have hstart : (Reader.start (takeMark s.toList).1).builder.Ordered :=
    ⟨fun e he => absurd he List.not_mem_nil, fun x hx => by cases hx⟩
  have hordered : r.builder.Ordered := Reader.keeps_foldlM (fun _ c hr => Reader.keeps_read? hr c) hstart _ r hr
  unfold Reader.result? Builder.result? at h
  split at h
  · split at h
    · split at h
      · exact hordered.root x h
      · cases h
    · cases h
  · cases h

end Blockwork.Xml
