import Mathlib.Data.Fintype.EquivFin
import Mathlib.Order.WellFounded
import Blockwork.Proofs.References

/-! # Following references

A document whose objects have all that a block needs is read if its references can be followed. While it is
read, every place is marked at most once.
-/

namespace Blockwork

set_option autoImplicit false

open List (mem_of_getElem? mem_map mem_cons_self mem_cons_of_mem mem_cons)

namespace Place

def Contains (o o' : Place) : Prop :=
  o.tree = o'.tree ∧ o.steps <+: o'.steps

theorem Contains.refl (o : Place) : o.Contains o :=
  ⟨rfl, List.prefix_rfl⟩

theorem Contains.of_step {o o' : Place} {s : Step} (h : (o.step s).Contains o') : o.Contains o' :=
  ⟨h.1, (List.prefix_append _ _).trans h.2⟩

theorem not_contains_step (o : Place) (s : Step) : ¬(o.step s).Contains o := by
  intro h
  have hlength := h.2.length_le
  simp only [step, List.length_append, List.length_singleton] at hlength
  omega

theorem Contains.eq_or_step {o o' : Place} (h : o.Contains o') : o' = o ∨ ∃ s, (o.step s).Contains o' := by
  obtain ⟨i, xs⟩ := o
  obtain ⟨j, ys⟩ := o'
  obtain ⟨rfl, rest, rfl⟩ : i = j ∧ ∃ rest, xs ++ rest = ys := h
  cases rest with
  | nil => exact .inl (by rw [List.append_nil])
  | cons s rest => exact .inr ⟨s, rfl, rest, by simp [step]⟩

theorem step_eq_of_contains {o o' : Place} {s t : Step} (hs : (o.step s).Contains o') (ht : (o.step t).Contains o') :
    s = t := by
  have hprefix := List.prefix_of_prefix_length_le hs.2 ht.2 (by simp [step])
  have hsteps : o.steps ++ [s] = o.steps ++ [t] := hprefix.eq_of_length (by simp [step])
  simpa using hsteps

theorem find?_of_contains {α : Type} {part? : α → Step → Option α} {forest : List α} {o o' : Place} {a : α}
    (h : o.Contains o') (ha : o'.find? part? forest = some a) : ∃ b, o.find? part? forest = some b := by
  obtain ⟨i, xs⟩ := o
  obtain ⟨j, ys⟩ := o'
  obtain ⟨rfl, rest, rfl⟩ : i = j ∧ ∃ rest, xs ++ rest = ys := h
  obtain ⟨root, hroot, ha⟩ := Option.bind_eq_some_iff.mp ha
  rw [List.foldlM_append] at ha
  obtain ⟨b, hb, -⟩ := Option.bind_eq_some_iff.mp ha
  exact ⟨b, Option.bind_eq_some_iff.mpr ⟨root, hroot, hb⟩⟩

end Place

namespace Block

/-- The records of a document that should be read. -/
structure Readable (records : Records) : Prop where
  keyed : Keyed records
  ordered : ∀ record ∈ records, record.2.Ordered
  shaped : ∀ o v, Json.BlockAt (records.map Prod.snd) o v → v.Shaped
  resolvable : Json.Resolvable (records.map Prod.snd)

def Records.RefersAt (records : Records) (o : Place) (id : String) : Prop :=
  Json.ReferenceAt (records.map Prod.snd) o id

def Records.Leads (records : Records) (i j : Nat) : Prop :=
  Json.Refers (records.map Prod.snd) i j

namespace Readable

variable {records : Records} {o o' : Place} {v w : Json} {id : String} {i j : Nat} (h : Readable records)

include h

theorem shaped_of_at? (hat : records.at? o = some v) (hv : v.isObject = true) : v.Shaped :=
  h.shaped o v (h.keyed.blockAt_iff.mpr ⟨hat, hv⟩)

theorem isObject_of_record (hi : records[i]? = some (id, v)) : v.isObject = true :=
  h.keyed.objects _ (mem_of_getElem? hi)

theorem getText?_record (hi : records[i]? = some (id, v)) : v.getText? "id" = some id := by
  obtain ⟨own, hown⟩ := (h.shaped_of_at? (at?_root hi) (h.isObject_of_record hi)).id
  have heq : id = own := h.keyed.own _ (mem_of_getElem? hi) own hown
  rw [hown, heq]

theorem place_eq (hv : records.at? o = some v) (hw : records.at? o' = some w)
    (hvo : v.isObject = true) (hwo : w.isObject = true) (hid : v.getText? "id" = some id)
    (hid' : w.getText? "id" = some id) : o = o' :=
  h.resolvable.distinct o o' v w id (h.keyed.blockAt_iff.mpr ⟨hv, hvo⟩) (h.keyed.blockAt_iff.mpr ⟨hw, hwo⟩) hid hid'

theorem not_mem_ids (ho : o.steps ≠ []) (hat : records.at? o = some v)
    (hv : v.isObject = true) (hid : v.getText? "id" = some id) : id ∉ records.ids := by
  intro hmem
  obtain ⟨⟨_, w⟩, hw, rfl⟩ := mem_map.mp hmem
  obtain ⟨i, hi⟩ := List.mem_iff_getElem?.mp hw
  have heq := h.place_eq hat (at?_root hi) hv (h.isObject_of_record hi) hid (h.getText?_record hi)
  exact ho (congrArg Place.steps heq)

theorem exists_record (ho : records.RefersAt o id) : ∃ (i : Nat) (v : Json), records[i]? = some (id, v) := by
  obtain ⟨i, v, hi, hv⟩ := h.resolvable.known o id ho
  obtain ⟨⟨own, w⟩, hrecord, rfl⟩ : ∃ record, records[i]? = some record ∧ record.2 = v := by
    simpa using hi
  have hown := h.getText?_record hrecord
  cases hv.symm.trans hown
  exact ⟨i, w, hrecord⟩

theorem reference_eq (ho : records.RefersAt o id) (ho' : records.RefersAt o' id) : o = o' := by
  obtain ⟨i, v, hi⟩ := h.exists_record ho
  exact h.resolvable.unshared i v id (by simp [hi]) (h.getText?_record hi) o o' ho ho'

theorem leads (ho : records.RefersAt o id) (hj : records[j]? = some (id, v)) : records.Leads o.tree j :=
  ⟨o, id, v, rfl, ho, by simp [hj], h.getText?_record hj⟩

end Readable

/-! ## Marks -/

section Marks

variable {records : Records} {p p₁ p' : Progress} {o o' x : Place} {i : Nat} {id : String}

def Touched (records : Records) (p : Progress) (o : Place) : Prop :=
  (∃ v id, records.at? o = some v ∧ v.isObject = true ∧ v.getText? "id" = some id ∧ id ∈ p.seen) ∨
    ∃ id, records.RefersAt o id ∧ id ∈ p.used

def Entered (records : Records) (p : Progress) (i : Nat) : Prop :=
  ∃ id v, records[i]? = some (id, v) ∧ id ∈ p.used

def Tidy (records : Records) (p : Progress) : Prop :=
  ∀ o, Touched records p o → Entered records p o.tree

def Free (records : Records) (p : Progress) (x : Place) : Prop :=
  ∀ o, x.Contains o → ¬Touched records p o

/-- What a run at some places marks: places below them, and places in records that it enters. When it is
done, it has used all references below the places and in the records. -/
structure Advances (records : Records) (xs : List Place) (p p' : Progress) : Prop where
  used : p.used ⊆ p'.used
  named : ∀ id ∈ p'.used, id ∈ p.used ∨ ∃ o, records.RefersAt o id
  touched : ∀ o, Touched records p' o → Touched records p o ∨ (∃ x ∈ xs, x.Contains o) ∨
    ¬Entered records p o.tree ∧ Entered records p' o.tree
  complete : ∀ x ∈ xs, ∀ o id, x.Contains o → records.RefersAt o id → id ∈ p'.used
  entered : ∀ i, Entered records p' i → Entered records p i ∨
    ∀ o id, o.tree = i → records.RefersAt o id → id ∈ p'.used

theorem Entered.mono (h : Entered records p i) (hused : p.used ⊆ p'.used) : Entered records p' i := by
  obtain ⟨id, v, hi, hid⟩ := h
  exact ⟨id, v, hi, hused hid⟩

theorem Advances.refl (records : Records) (p : Progress) : Advances records [] p p :=
  ⟨List.Subset.refl _, fun _ h => .inl h, fun _ h => .inl h, fun _ hx => absurd hx List.not_mem_nil,
    fun _ h => .inl h⟩

theorem Advances.trans {xs ys : List Place} (h : Advances records xs p p₁) (h' : Advances records ys p₁ p') :
    Advances records (xs ++ ys) p p' := by
  refine ⟨List.Subset.trans h.used h'.used, fun id hid => ?_, fun o ho => ?_, fun x hx o id ho hid => ?_, fun i hi => ?_⟩
  · rcases h'.named id hid with hid | hid
    · exact h.named id hid
    · exact .inr hid
  · rcases h'.touched o ho with ho | ⟨x, hx, ho⟩ | ⟨hno, ho⟩
    · rcases h.touched o ho with ho | ⟨x, hx, ho⟩ | ⟨hno, ho⟩
      · exact .inl ho
      · exact .inr (.inl ⟨x, List.mem_append_left _ hx, ho⟩)
      · exact .inr (.inr ⟨hno, ho.mono h'.used⟩)
    · exact .inr (.inl ⟨x, List.mem_append_right _ hx, ho⟩)
    · exact .inr (.inr ⟨fun hp => hno (hp.mono h.used), ho⟩)
  · rcases List.mem_append.mp hx with hx | hx
    · exact h'.used (h.complete x hx o id ho hid)
    · exact h'.complete x hx o id ho hid
  · rcases h'.entered i hi with hi | hi
    · rcases h.entered i hi with hi | hi
      · exact .inl hi
      · exact .inr fun o id ho hid => h'.used (hi o id ho hid)
    · exact .inr hi

theorem Advances.tidy {xs : List Place} (h : Advances records xs p p') (hp : Tidy records p)
    (hxs : ∀ x ∈ xs, Entered records p x.tree) : Tidy records p' := by
  intro o ho
  rcases h.touched o ho with ho | ⟨x, hx, ho⟩ | ⟨-, ho⟩
  · exact (hp o ho).mono h.used
  · rw [← ho.1]
    exact (hxs x hx).mono h.used
  · exact ho

theorem Advances.free {xs : List Place} (h : Advances records xs p p') (hfree : Free records p x)
    (hx : Entered records p x.tree) (hapart : ∀ o, x.Contains o → ∀ y ∈ xs, ¬y.Contains o) :
    Free records p' x := by
  intro o ho hto
  rcases h.touched o hto with hto | ⟨y, hy, hyo⟩ | ⟨hno, -⟩
  · exact hfree o ho hto
  · exact hapart o ho y hy hyo
  · exact hno (ho.1 ▸ hx)

def Succeeds (records : Records) (x : Place) (run : Building Block) : Prop :=
  ∀ p, Tidy records p → Entered records p x.tree → Free records p x →
    ∃ b p', Yields run p b p' ∧ Advances records [x] p p'

end Marks

/-! ## Builders -/

theorem exists_scalars {blockId part : String} {members : List (String × Json)}
    (h : ∀ name x, (name, x) ∈ members → (scalarText? x).isSome = true) :
    ∃ texts, scalars blockId part members = .ok texts := by
  induction members with
  | nil => exact ⟨[], rfl⟩
  | cons member members ih =>
    obtain ⟨name, x⟩ := member
    obtain ⟨text, htext⟩ := Option.isSome_iff_exists.mp (h name x mem_cons_self)
    obtain ⟨texts, hrest⟩ := ih fun name x hmem => h name x (mem_cons_of_mem _ hmem)
    rw [scalars, htext, hrest]
    cases text with
    | none => exact ⟨texts, rfl⟩
    | some text => exact ⟨(name, text) :: texts, rfl⟩

theorem exists_textsAt {v : Json} (hv : v.Ordered) (hshaped : v.Shaped) (id : String) {part : String}
    (hpart : part ∈ ["fields", "mutation"]) : ∃ texts, textsAt v id part = .ok texts := by
  unfold textsAt
  split
  · next members hmembers =>
    refine exists_scalars fun name x hmem => hshaped.scalars part hpart name x ?_
    rw [hmembers, Option.bind_some]
    exact (hv.get? hmembers).get?_iff.mpr hmem
  · exact ⟨[], rfl⟩

section Builders

variable {records : Records} {follow : Follow} {p p' : Progress} {x : Place} {v : Json} {id : String}

theorem touched_see (h : Readable records) (hat : records.at? x = some v) (hv : v.isObject = true)
    (hid : v.getText? "id" = some id) {o : Place}
    (ho : Touched records { p with seen := id :: p.seen } o) : Touched records p o ∨ o = x := by
  rcases ho with ⟨w, id', hw, hwo, hid', hmem⟩ | ho
  · rcases mem_cons.mp hmem with rfl | hmem
    · exact .inr (h.place_eq hw hat hwo hv hid' hid)
    · exact .inl (.inl ⟨w, id', hw, hwo, hid', hmem⟩)
  · exact .inl (.inr ho)

theorem builds_succeeds {build : Json → Building Block} {ps : List (Step × Json)}
    (hps : (ps.map Prod.fst).Nodup) (hbuild : ∀ s t, (s, t) ∈ ps → Succeeds records (x.step s) (build t))
    (hp : Tidy records p) (hx : Entered records p x.tree) (hfree : ∀ s t, (s, t) ∈ ps → Free records p (x.step s)) :
    ∃ bs p', Builds build ps p bs p' ∧ Advances records (ps.map fun part => x.step part.1) p p' := by
  induction ps generalizing p with
  | nil => exact ⟨[], p, .nil p, Advances.refl records p⟩
  | cons part ps ih =>
    obtain ⟨s, t⟩ := part
    obtain ⟨hs, hps⟩ := List.nodup_cons.mp hps
    obtain ⟨b, p₁, hb, hadvances⟩ :=
      hbuild s t mem_cons_self p hp hx (hfree s t mem_cons_self)
    have hp₁ : Tidy records p₁ := hadvances.tidy hp (List.forall_mem_singleton.mpr hx)
    have hfree₁ : ∀ s' t', (s', t') ∈ ps → Free records p₁ (x.step s') := by
      intro s' t' hmem
      refine hadvances.free (hfree s' t' (mem_cons_of_mem _ hmem)) hx fun o ho y hy hyo => ?_
      rw [List.mem_singleton.mp hy] at hyo
      exact hs (mem_map.mpr ⟨(s', t'), hmem, Place.step_eq_of_contains ho hyo⟩)
    obtain ⟨bs, p', hbs, hadvances'⟩ := ih hps (fun s' t' hmem => hbuild s' t' (mem_cons_of_mem _ hmem)) hp₁
      (hx.mono hadvances.used) hfree₁
    exact ⟨_, p', .cons hb hbs, hadvances.trans hadvances'⟩

theorem assemble_succeeds (h : Readable records) (hat : records.at? x = some v) (hv : v.isObject = true)
    (hordered : v.Ordered) (hid : v.getText? "id" = some id)
    (hparts : ∀ s t, v.part? s = some t → Succeeds records (x.step s) (buildTarget records follow id t)) :
    Succeeds records x (assemble id v (partsOf records follow id v.members)) := by
  intro p hp hx hfree
  have hshaped := h.shaped_of_at? hat hv
  have hnew : id ∉ p.seen := fun hmem => hfree x (.refl x) (.inl ⟨v, id, hat, hv, hid, hmem⟩)
  have hp₁ : Tidy records { p with seen := id :: p.seen } := by
    intro o ho
    rcases touched_see h hat hv hid ho with ho | rfl
    · exact hp o ho
    · exact hx
  have hfree₁ : ∀ s t, (s, t) ∈ v.entries → Free records { p with seen := id :: p.seen } (x.step s) := by
    intro s t _ o ho hto
    rcases touched_see h hat hv hid hto with hto | rfl
    · exact hfree o ho.of_step hto
    · exact Place.not_contains_step o s ho
  obtain ⟨bs, p', hbs, hadvances⟩ := builds_succeeds hordered.nodup_entries
    (fun s t hmem => hparts s t (hordered.mem_entries_iff.mp hmem)) hp₁ hx hfree₁
  obtain ⟨tag, htag⟩ := hshaped.tag
  obtain ⟨fields, hfields⟩ := exists_textsAt hordered hshaped id mem_cons_self
  obtain ⟨mutation, hmutation⟩ := exists_textsAt hordered hshaped id (mem_cons_of_mem _ mem_cons_self)
  obtain ⟨b, hb⟩ := exists_assemble hordered hnew htag hfields hmutation hbs
  refine ⟨b, p', hb, hadvances.used, hadvances.named, fun o ho => ?_, ?_, hadvances.entered⟩
  · rcases hadvances.touched o ho with ho | ⟨y, hy, ho⟩ | ho
    · rcases touched_see h hat hv hid ho with ho | rfl
      · exact .inl ho
      · exact .inr (.inl ⟨o, List.mem_singleton_self o, .refl o⟩)
    · obtain ⟨part, -, rfl⟩ := mem_map.mp hy
      exact .inr (.inl ⟨x, List.mem_singleton_self x, ho.of_step⟩)
    · exact .inr (.inr ho)
  · -- A reference below the object stands below one of its parts.
    intro y hy o id' ho hid'
    rw [List.mem_singleton.mp hy] at ho
    rcases ho.eq_or_step with rfl | ⟨s, ho⟩
    · cases hat.symm.trans hid'.2
      cases hv
    · obtain ⟨t, ht⟩ := Place.find?_of_contains ho hid'.2
      have hmem := hordered.mem_entries_iff.mpr ((Place.find?_step_of_find? hat).symm.trans ht)
      exact hadvances.complete _ (mem_map.mpr ⟨(s, t), hmem, rfl⟩) o id' ho hid'

theorem buildTarget_succeeds (h : Readable records) {i : Nat}
    (hfollow : ∀ o id v, o.tree = i → records.RefersAt o id → Dict.get? id records = some v →
      Succeeds records o (follow id v))
    (hi : x.tree = i) {s : Step} {t : Json} {parent : String} (hat : records.at? (x.step s) = some t) (ht : t.Ordered)
    (hshape : t.isObject = true ∨ ∃ id, t = .text id) :
    Succeeds records (x.step s) (buildTarget records follow parent t) := by
  induction t using Json.part_induct generalizing x s parent with
  | h t ih =>
    rcases hshape with hobject | ⟨id, rfl⟩
    · have hshaped := h.shaped_of_at? hat hobject
      obtain ⟨id, hid⟩ := hshaped.id
      have hnew := h.not_mem_ids (Place.step_ne_root x s) hat hobject hid
      have hassemble : Succeeds records (x.step s) (assemble id t (partsOf records follow id t.members)) :=
        assemble_succeeds h hat hobject ht hid fun s' t' hpart =>
          ih s' t' hpart (x := x.step s) hi ((Place.find?_step_of_find? hat).trans hpart) (ht.part? hpart)
            (hshaped.parts s' t' hpart)
      intro p hp hx hfree
      obtain ⟨b, p', hb, hadvances⟩ := hassemble p hp hx hfree
      exact ⟨b, p', (buildTarget_object_iff hobject).mpr ⟨id, p, nestedId_of_own hid, hnew, hb⟩, hadvances⟩
    · have href : records.RefersAt (x.step s) id := ⟨Place.step_ne_root x s, hat⟩
      obtain ⟨j, v, hj⟩ := h.exists_record href
      have hget : Dict.get? id records = some v :=
        Dict.get?_of_mem h.keyed.nodup (mem_of_getElem? hj)
      intro p hp hx hfree
      obtain ⟨b, p', hb, hadvances⟩ := hfollow (x.step s) id v hi href hget p hp hx hfree
      exact ⟨b, p', buildTarget_text_iff.mpr ⟨v, hget, hb⟩, hadvances⟩

end Builders

/-! ## Records -/

section Records

variable {records : Records} {p p' : Progress} {id : String} {v : Json} {j : Nat}

def Progress.enter (p : Progress) (id : String) : Progress :=
  { p with used := id :: p.used }

theorem touched_enter {o : Place} (ho : Touched records (p.enter id) o) :
    Touched records p o ∨ records.RefersAt o id := by
  rcases ho with ho | ⟨id', hid', hmem⟩
  · exact .inl (.inl ho)
  · rcases mem_cons.mp hmem with rfl | hmem
    · exact .inr hid'
    · exact .inl (.inr ⟨id', hid', hmem⟩)

theorem entered_enter (h : Readable records) (hj : records[j]? = some (id, v)) {i : Nat}
    (hi : Entered records (p.enter id) i) : Entered records p i ∨ i = j := by
  obtain ⟨id', w, hi, hmem⟩ := hi
  rcases mem_cons.mp hmem with rfl | hmem
  · exact .inr (index_eq h.keyed.nodup hi hj)
  · exact .inl ⟨id', w, hi, hmem⟩

theorem not_entered (hj : records[j]? = some (id, v)) (hnew : id ∉ p.used) : ¬Entered records p j := by
  rintro ⟨id', w, hi, hmem⟩
  cases hj.symm.trans hi
  exact hnew hmem

theorem enter_succeeds (hj : records[j]? = some (id, v)) (hp : Tidy records p) (hnew : id ∉ p.used)
    (hrefs : ∀ o, records.RefersAt o id → Entered records p o.tree) {run : Building Block}
    (hrun : Succeeds records ⟨j, []⟩ run) :
    ∃ b p', Yields run (p.enter id) b p' ∧ Advances records [⟨j, []⟩] (p.enter id) p' ∧ Tidy records p' := by
  have hused : p.used ⊆ (p.enter id).used := List.subset_cons_self id p.used
  have htouched : ∀ {o}, Touched records (p.enter id) o → Entered records p o.tree := by
    intro o ho
    rcases touched_enter ho with ho | ho
    · exact hp o ho
    · exact hrefs o ho
  have htidy : Tidy records (p.enter id) := fun o ho => (htouched ho).mono hused
  have hentered : Entered records (p.enter id) j := ⟨id, v, hj, mem_cons_self⟩
  have hfree : Free records (p.enter id) ⟨j, []⟩ := by
    intro o ho hto
    obtain rfl : j = o.tree := ho.1
    exact not_entered hj hnew (htouched hto)
  obtain ⟨b, p', hb, hadvances⟩ := hrun _ htidy hentered hfree
  exact ⟨b, p', hb, hadvances, hadvances.tidy htidy (List.forall_mem_singleton.mpr hentered)⟩

theorem entered_of_enter (h : Readable records) (hj : records[j]? = some (id, v))
    (hadvances : Advances records [⟨j, []⟩] (p.enter id) p') {i : Nat} (hi : Entered records p' i) :
    Entered records p i ∨ ∀ o id, o.tree = i → records.RefersAt o id → id ∈ p'.used := by
  rcases hadvances.entered i hi with hi | hi
  · rcases entered_enter h hj hi with hi | rfl
    · exact .inl hi
    · refine .inr fun o id' ho hid' => hadvances.complete _ (List.mem_singleton_self _) o id' ?_ hid'
      exact ⟨ho.symm, List.nil_prefix⟩
  · exact .inr hi

theorem Advances.of_enter (h : Readable records) (hj : records[j]? = some (id, v)) (hnew : id ∉ p.used) {x : Place}
    (hx : records.RefersAt x id) (hadvances : Advances records [⟨j, []⟩] (p.enter id) p') :
    Advances records [x] p p' := by
  have hused : id ∈ p'.used := hadvances.used mem_cons_self
  refine ⟨fun a ha => hadvances.used (mem_cons_of_mem _ ha), fun id' hid' => ?_, fun o ho => ?_,
    fun y hy o id' ho hid' => ?_, fun i hi => entered_of_enter h hj hadvances hi⟩
  · rcases hadvances.named id' hid' with hid' | hid'
    · rcases mem_cons.mp hid' with rfl | hid'
      · exact .inr ⟨x, hx⟩
      · exact .inl hid'
    · exact .inr hid'
  · rcases hadvances.touched o ho with ho | ⟨y, hy, ho⟩ | ⟨hno, ho⟩
    · rcases touched_enter ho with ho | ho
      · exact .inl ho
      · rw [h.reference_eq hx ho]
        exact .inr (.inl ⟨o, List.mem_singleton_self o, .refl o⟩)
    · rw [List.mem_singleton.mp hy] at ho
      obtain rfl : j = o.tree := ho.1
      exact .inr (.inr ⟨not_entered hj hnew, id, v, hj, hused⟩)
    · exact .inr (.inr ⟨fun hp => hno (hp.mono (List.subset_cons_self id p.used)), ho⟩)
  · -- Below a reference there is no other one.
    rw [List.mem_singleton.mp hy] at ho
    rcases ho.eq_or_step with rfl | ⟨s, ho⟩
    · cases hx.2.symm.trans hid'.2
      exact hused
    · obtain ⟨t, ht⟩ := Place.find?_of_contains ho hid'.2
      rw [Place.find?_step_of_find? hx.2] at ht
      cases s <;> cases ht

/-- The records of a path are distinct, and each of them leads to record `j`. -/
structure LeadsTo (records : Records) (path : List String) (j : Nat) : Prop where
  nodup : path.Nodup
  leads : ∀ r ∈ path, ∃ (k : Nat) (w : Json), records[k]? = some (r, w) ∧ Relation.TransGen records.Leads k j

namespace LeadsTo

variable {path : List String} {k : Nat}

theorem not_mem (hpath : LeadsTo records path j) (h : Readable records) (hj : records[j]? = some (id, v)) :
    id ∉ path := by
  intro hmem
  obtain ⟨k, w, hk, hkj⟩ := hpath.leads id hmem
  rw [index_eq h.keyed.nodup hk hj] at hkj
  exact h.resolvable.acyclic j hkj

theorem cons (hpath : LeadsTo records path j) (h : Readable records) (hj : records[j]? = some (id, v))
    (hjk : records.Leads j k) : LeadsTo records (id :: path) k := by
  refine ⟨List.nodup_cons.mpr ⟨hpath.not_mem h hj, hpath.nodup⟩, fun r hr => ?_⟩
  rcases mem_cons.mp hr with rfl | hr
  · exact ⟨j, v, hj, .single hjk⟩
  · obtain ⟨i, w, hi, hij⟩ := hpath.leads r hr
    exact ⟨i, w, hi, .tail hij hjk⟩

theorem length_lt (hpath : LeadsTo records path j) (h : Readable records) (hj : records[j]? = some (id, v)) :
    path.length < records.length := by
  have hsubset : id :: path ⊆ records.ids := by
    refine List.cons_subset.mpr ⟨List.mem_map_of_mem (mem_of_getElem? hj), fun r hr => ?_⟩
    obtain ⟨k, w, hk, -⟩ := hpath.leads r hr
    exact List.mem_map_of_mem (mem_of_getElem? hk)
  have hnodup := List.nodup_cons.mpr ⟨hpath.not_mem h hj, hpath.nodup⟩
  have hle := (List.subperm_of_subset hnodup hsubset).length_le
  simp only [List.length_cons, Records.ids, List.length_map] at hle
  omega

end LeadsTo

/-- A record is built where nothing is marked. The open records lead to it, so none of them comes again, and
the limit is not reached. -/
theorem buildRecord_succeeds (h : Readable records) {limit : Nat} {path : List String}
    (hpath : LeadsTo records path j) (hj : records[j]? = some (id, v))
    (hlimit : records.length ≤ limit + path.length) :
    Succeeds records ⟨j, []⟩ (buildRecord records limit path id v) := by
  induction limit generalizing path j id v with
  | zero =>
    have hlt := hpath.length_lt h hj
    omega
  | succ limit ih =>
    have hfollow : ∀ o id' v', o.tree = j → records.RefersAt o id' → Dict.get? id' records = some v' →
        Succeeds records o (followFrom records limit (id :: path) id' v') := by
      rintro o id' v' rfl hid' hget p hp hx hfree
      obtain ⟨k, hk⟩ := List.mem_iff_getElem?.mp (Dict.mem_of_get? hget)
      have hpath' : LeadsTo records (id :: path) k := hpath.cons h hj (h.leads hid' hk)
      have hnew : id' ∉ p.used := fun hmem => hfree o (.refl o) (.inr ⟨id', hid', hmem⟩)
      have hrefs : ∀ o', records.RefersAt o' id' → Entered records p o'.tree := fun o' ho' =>
        h.reference_eq hid' ho' ▸ hx
      obtain ⟨b, p', hb, hadvances, -⟩ := enter_succeeds hk hp hnew hrefs
        (ih hpath' hk (by simp only [List.length_cons]; omega))
      refine ⟨b, p', followFrom_yields_iff.mpr ⟨hpath'.not_mem h hk, hnew, hb⟩, ?_⟩
      exact hadvances.of_enter h hk hnew hid'
    have hordered : v.Ordered := h.ordered _ (mem_of_getElem? hj)
    have hobject := h.isObject_of_record hj
    have hshaped := h.shaped_of_at? (at?_root hj) hobject
    rw [buildRecord_succ]
    refine assemble_succeeds h (at?_root hj) hobject hordered (h.getText?_record hj) fun s t hpart => ?_
    exact buildTarget_succeeds h hfollow rfl ((Place.find?_step_of_find? (at?_root hj)).trans hpart)
      (hordered.part? hpart) (hshaped.parts s t hpart)

end Records

/-! ## Documents -/

section Documents

variable {records : Records} {referenced : List String}

theorem buildRoots_succeeds (h : Readable records) {done rest : Records} (hsplit : records = done ++ rest)
    (hreferenced : ∀ id, id ∈ referenced ↔ ∃ o, records.RefersAt o id) {p : Progress} (hp : Tidy records p)
    (hnew : ∀ record ∈ rest, record.1 ∉ referenced → record.1 ∉ p.used) :
    ∃ bs p', Yields (buildRoots records referenced rest) p bs p' ∧ p.used ⊆ p'.used ∧
      (∀ record ∈ rest, record.1 ∉ referenced → record.1 ∈ p'.used) ∧
      ∀ i, Entered records p' i → Entered records p i ∨
        ∀ o id, o.tree = i → records.RefersAt o id → id ∈ p'.used := by
  induction rest generalizing done p with
  | nil => exact ⟨[], p, yields_pure_iff.mpr ⟨rfl, rfl⟩, List.Subset.refl _, by simp, fun i hi => .inl hi⟩
  | cons record rest ih =>
    obtain ⟨id, v⟩ := record
    have hj : records[done.length]? = some (id, v) := by simp [hsplit]
    have hsplit' : records = (done ++ [(id, v)]) ++ rest := by simp [hsplit]
    by_cases hid : id ∈ referenced
    · obtain ⟨bs, p', hbs, hused, hroots, hentered⟩ :=
        ih hsplit' hp fun record hmem => hnew record (mem_cons_of_mem _ hmem)
      refine ⟨bs, p', buildRoots_cons_iff.mpr (by rwa [if_pos hid]), hused, ?_, hentered⟩
      exact List.forall_mem_cons.mpr ⟨fun hno => absurd hid hno, hroots⟩
    · have hrefs : ∀ o, ¬records.RefersAt o id := fun o ho => hid ((hreferenced id).mpr ⟨o, ho⟩)
      have hrecord : Succeeds records ⟨done.length, []⟩ (buildRecord records records.length [] id v) :=
        buildRecord_succeeds h ⟨List.nodup_nil, by simp⟩ hj (by simp)
      obtain ⟨b, p₁, hb, hadvances, hp₁⟩ := enter_succeeds hj hp (hnew _ mem_cons_self hid)
        (fun o ho => absurd ho (hrefs o)) hrecord
      have hnew₁ : ∀ record ∈ rest, record.1 ∉ referenced → record.1 ∉ p₁.used := by
        intro record hmem hrecord hused
        have hne : record.1 ≠ id := by
          intro heq
          have hnodup := h.keyed.nodup
          rw [hsplit, Records.ids, List.map_append, List.map_cons] at hnodup
          have hrest := (List.nodup_cons.mp (List.nodup_append.mp hnodup).2.1).1
          exact hrest (mem_map.mpr ⟨record, hmem, heq⟩)
        rcases hadvances.named _ hused with hused | href
        · rcases mem_cons.mp hused with heq | hused
          · exact hne heq
          · exact hnew record (mem_cons_of_mem _ hmem) hrecord hused
        · exact hrecord ((hreferenced _).mpr href)
      obtain ⟨bs, p', hbs, hused, hroots, hentered⟩ := ih hsplit' hp₁ hnew₁
      have hused₁ : p.used ⊆ p₁.used := fun a ha => hadvances.used (mem_cons_of_mem _ ha)
      refine ⟨b :: bs, p', buildRoots_cons_iff.mpr (by rw [if_neg hid]; exact ⟨b, p₁, bs, hb, hbs, rfl⟩),
        List.Subset.trans hused₁ hused, ?_, fun i hi => ?_⟩
      · exact List.forall_mem_cons.mpr ⟨fun _ => hused (hadvances.used mem_cons_self), hroots⟩
      · rcases hentered i hi with hi | hi
        · rcases entered_of_enter h hj hadvances hi with hi | hi
          · exact .inl hi
          · exact .inr fun o id' ho hid' => hused (hi o id' ho hid')
        · exact .inr hi

theorem all_entered (h : Readable records) {p : Progress}
    (hroots : ∀ record ∈ records, (∀ o, ¬records.RefersAt o record.1) → record.1 ∈ p.used)
    (hentered : ∀ i, Entered records p i → ∀ o id, o.tree = i → records.RefersAt o id → id ∈ p.used) :
    records.ids ⊆ p.used := by
  have hwf : WellFounded fun i j : Fin records.length => Relation.TransGen records.Leads i j := by
    have htrans : IsTrans (Fin records.length) fun i j => Relation.TransGen records.Leads i j :=
      ⟨fun _ _ _ => Relation.TransGen.trans⟩
    have hirrefl : Std.Irrefl fun i j : Fin records.length => Relation.TransGen records.Leads i j :=
      ⟨fun i hi => h.resolvable.acyclic i hi⟩
    exact Finite.wellFounded_of_trans_of_irrefl _
  have hall : ∀ i : Fin records.length, records[i].1 ∈ p.used := by
    intro i
    induction i using hwf.induction with
    | h i ih =>
      have hi : records[i.val]? = some (records[i].1, records[i].2) := List.getElem?_eq_getElem i.isLt
      by_cases hnamed : ∃ o, records.RefersAt o records[i].1
      · obtain ⟨o, ho⟩ := hnamed
        -- The record with the reference comes before this one.
        obtain ⟨root, hroot, -⟩ := Option.bind_eq_some_iff.mp ho.2
        obtain ⟨hlt, -⟩ := List.getElem?_eq_some_iff.mp hroot
        rw [List.length_map] at hlt
        have hfirst := ih ⟨o.tree, hlt⟩ (.single (h.leads ho hi))
        exact hentered o.tree ⟨_, _, List.getElem?_eq_getElem hlt, hfirst⟩ o _ rfl ho
      · exact hroots _ (List.getElem_mem i.isLt) (not_exists.mp hnamed)
  intro id hid
  obtain ⟨record, hrecord, rfl⟩ := mem_map.mp hid
  obtain ⟨i, hlt, rfl⟩ := List.getElem_of_mem hrecord
  exact hall ⟨i, hlt⟩

theorem exists_ofRecords {values : List Json} (hordered : ∀ v ∈ values, v.Ordered)
    (hshaped : ∀ o v, Json.BlockAt values o v → v.Shaped) (hresolvable : Json.Resolvable values) :
    ∃ bs, ofRecords values = .ok bs := by
  have hroot : ∀ {i : Nat} {v : Json}, values[i]? = some v → Json.BlockAt values ⟨i, []⟩ v := fun hi =>
    ⟨by rw [Place.find?_root, hi], .inl rfl⟩
  have hids : ∀ v ∈ values, v.isObject = true ∧ ∃ id, v.getText? "id" = some id := by
    intro v hv
    obtain ⟨i, hi⟩ := List.mem_iff_getElem?.mp hv
    obtain ⟨id, hid⟩ := (hshaped _ v (hroot hi)).id
    refine ⟨?_, id, hid⟩
    cases v with
    | object members => rfl
    | _ => cases hid
  have hnodup : (values.filterMap (·.getText? "id")).Nodup := by
    rw [List.Nodup, List.pairwise_filterMap, List.pairwise_iff_getElem]
    intro i j hi hj hlt id hid id' hid' heq
    subst heq
    have hplace := hresolvable.distinct _ _ _ _ id (hroot (List.getElem?_eq_getElem hi))
      (hroot (List.getElem?_eq_getElem hj)) hid hid'
    exact Nat.ne_of_lt hlt (congrArg Place.tree hplace)
  obtain ⟨records, count, hrecords⟩ := exists_recordsOf hids hnodup
  obtain ⟨hkeyed, rfl⟩ := recordsOf_ok hrecords
  have h : Readable records :=
    ⟨hkeyed, fun record hmem => hordered _ (List.mem_map_of_mem hmem), hshaped, hresolvable⟩
  have hreferenced : ∀ id, id ∈ (records.map Prod.snd).flatMap slotReferences ↔ ∃ o, records.RefersAt o id :=
    fun id => hkeyed.mem_references_iff h.ordered
  have hstart : Tidy records { used := [], seen := [], count } := by
    rintro o (⟨v, id, -, -, -, hmem⟩ | ⟨id, -, hmem⟩) <;> cases hmem
  obtain ⟨bs, p, hbs, -, hroots, hentered⟩ :=
    buildRoots_succeeds h (List.nil_append _).symm hreferenced hstart (by simp)
  refine ⟨bs, ofRecords_ok_iff.mpr ⟨records, count, p, hrecords, hbs, all_entered h ?_ ?_⟩⟩
  · intro record hmem hunnamed
    refine hroots record hmem fun hmem' => ?_
    obtain ⟨o, ho⟩ := (hreferenced _).mp hmem'
    exact hunnamed o ho
  · intro i hi
    rcases hentered i hi with ⟨id, v, -, hmem⟩ | hi
    · cases hmem
    · exact hi

/-- A document whose objects have all that a block needs is read if and only if its references can be
followed. -/
theorem ofJson_succeeds_iff {doc : Json} {values : List Json} (hdoc : doc.Ordered)
    (hvalues : doc.records? = some values) (hshaped : ∀ o v, Json.BlockAt values o v → v.Shaped) :
    (∃ bs, ofJson doc = .ok bs) ↔ Json.Resolvable values := by
  have hordered := hdoc.records? hvalues
  constructor
  · rintro ⟨bs, hbs⟩
    obtain ⟨values', hvalues', hbs⟩ := ofJson_ok_iff_records.mp hbs
    cases hvalues.symm.trans hvalues'
    obtain ⟨hnodup, f, hf⟩ := ofRecords_forest hordered hbs
    exact hf.resolvable hnodup hshaped
  · intro hresolvable
    obtain ⟨bs, hbs⟩ := exists_ofRecords hordered hshaped hresolvable
    exact ⟨bs, ofJson_ok_iff_records.mpr ⟨values, hvalues, hbs⟩⟩

end Documents

def referring : Json :=
  .object [("id", .text "c"), ("statement-slots", .object [("DO", .text "d")]), ("type", .text "u")]

/-- The first record refers to the second one, and an object inside the second one to the third one. -/
def chained : List Json :=
  [.object [("id", .text "a"), ("next", .text "b"), ("type", .text "t")],
    .object [("id", .text "b"), ("type", .text "t"), ("value-slots", .object [("A", referring)])],
    .object [("fields", .object [("NUM", .number (.int 7))]), ("id", .text "d"), ("type", .text "t")]]

theorem chained_part? {v t : Json} {s : Step} (hv : v ∈ referring :: chained) (hpart : v.part? s = some t) :
    t = referring ∨ ∃ id, t = .text id := by
  have hordered : ∀ v ∈ referring :: chained, v.Ordered := by decide
  have hentries : (referring :: chained).map Json.entries =
      [[(.statement "DO", .text "d")], [(.next, .text "b")], [(.value "A", referring)], []] := rfl
  have hentry : (s, t) ∈ v.entries := (hordered v hv).mem_entries_iff.mpr hpart
  have hv' := List.mem_map_of_mem (f := Json.entries) hv
  rw [hentries] at hv'
  simp only [mem_cons, List.not_mem_nil, or_false] at hv'
  rcases hv' with e | e | e | e
  all_goals
    rw [e] at hentry
    simp_all

theorem chained_shaped {o : Place} {v : Json} (h : Json.BlockAt chained o v) : v.Shaped := by
  have hmem : v ∈ referring :: chained := by
    refine h.induct (fun v hv => mem_cons_of_mem _ hv) fun v s t hv hpart hobject => ?_
    rcases chained_part? hv hpart with rfl | ⟨id, rfl⟩
    · exact mem_cons_self
    · cases hobject
  have hshape : ∀ s t, v.part? s = some t → t.isObject = true ∨ ∃ id, t = .text id := by
    intro s t hpart
    rcases chained_part? hmem hpart with rfl | hid
    · exact .inl rfl
    · exact .inr hid
  simp only [chained, mem_cons, List.not_mem_nil, or_false] at hmem
  rcases hmem with rfl | rfl | rfl | rfl
  case inr.inr.inr =>
    -- Only the last record has fields.
    refine ⟨⟨"d", rfl⟩, ⟨"t", rfl⟩, List.forall_mem_cons.mpr ⟨fun name x hx => ?_, ?_⟩, hshape⟩
    · change (if "NUM" = name then some (Json.number (.int 7)) else none) = some x at hx
      split at hx <;> cases hx
      rfl
    · exact List.forall_mem_singleton.mpr fun name x hx => by cases hx
  all_goals
    refine ⟨⟨_, rfl⟩, ⟨_, rfl⟩, List.forall_mem_cons.mpr ⟨fun name x hx => ?_, ?_⟩, hshape⟩
    · cases hx
    · exact List.forall_mem_singleton.mpr fun name x hx => by cases hx

theorem chained_succeeds :
    (Json.array chained).Ordered ∧ (Json.array chained).records? = some chained ∧
      (∀ o v, Json.BlockAt chained o v → v.Shaped) ∧ (∃ bs, ofJson (.array chained) = .ok bs) ∧
      Json.Resolvable chained := by
  have hordered : (Json.array chained).Ordered := by decide
  have hshaped : ∀ o v, Json.BlockAt chained o v → v.Shaped := fun o v => chained_shaped
  have hread : ∃ bs, ofJson (.array chained) = .ok bs := Except.exists_of_isOk (by decide +kernel)
  exact ⟨hordered, rfl, hshaped, hread, (ofJson_succeeds_iff hordered rfl hshaped).mp hread⟩

end Block

end Blockwork
