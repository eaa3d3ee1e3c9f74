import Blockwork.Proofs.Building

/-! # What blocks are built from

Every block comes from an object of the document: from a record, or from an object inside one. At the
place of a reference stands the record that it names.
-/

namespace Blockwork.Block

set_option autoImplicit false

def Records.at? (records : Records) (o : Place) : Option Json :=
  o.find? Json.part? (records.map Prod.snd)

/-- The place of the object that stands at a place: the place itself, or the record that a reference
names. -/
inductive Origin (records : Records) (o : Place) : Place → Prop where
  | inPlace {v : Json} (hat : records.at? o = some v) (hobject : v.isObject = true) : Origin records o o
  | reference {id : String} {v : Json} {i : Nat} (hat : records.at? o = some (.text id))
    (hrecord : records[i]? = some (id, v)) : Origin records o ⟨i, []⟩

structure Matches (records : Records) (o : Place) (v : Json) (b : Block) : Prop where
  at? : records.at? o = some v
  object : v.isObject = true
  ordered : v.Ordered
  head : b.Heads b.id v
  own : ∀ id, v.getText? "id" = some id → b.id = id
  root : o.steps = [] → ∃ w, records[o.tree]? = some (b.id, w)
  nested : o.steps ≠ [] → b.id ∉ records.ids
  steps : b.entries.map Prod.fst = v.entries.map Prod.fst
  origin : ∀ s t, (s, t) ∈ v.entries → ∃ o', Origin records (o.step s) o'

/-- The block comes from the object at a place, and its parts come from what stands there. -/
inductive Built (records : Records) : Place → Block → Prop where
  | intro {o : Place} {v : Json} {b : Block} (hmatches : Matches records o v b)
    (hparts : ∀ s c o', (s, c) ∈ b.entries → Origin records (o.step s) o' → Built records o' c) :
    Built records o b

theorem index_eq {records : Records} (hnodup : records.ids.Nodup) {i j : Nat} {id : String} {v w : Json}
    (hi : records[i]? = some (id, v)) (hj : records[j]? = some (id, w)) : i = j := by
  have hids : records.ids[i]? = records.ids[j]? := by
    simp [Records.ids, hi, hj]
  obtain ⟨hlt, -⟩ := List.getElem?_eq_some_iff.mp hi
  exact (List.getElem?_inj (by simpa [Records.ids] using hlt) hnodup).mp hids

theorem Origin.eq {records : Records} (hnodup : records.ids.Nodup) {o o₁ o₂ : Place}
    (h₁ : Origin records o o₁) (h₂ : Origin records o o₂) : o₁ = o₂ := by
  cases h₁ with
  | inPlace hat hobject =>
    cases h₂ with
    | inPlace _ _ => rfl
    | reference hat' _ =>
      cases hat.symm.trans hat'
      cases hobject
  | reference hat hrecord =>
    cases h₂ with
    | inPlace hat' hobject =>
      cases hat.symm.trans hat'
      cases hobject
    | reference hat' hrecord' =>
      cases hat.symm.trans hat'
      rw [index_eq hnodup hrecord hrecord']

/-! ## Marks -/

/-- The identifiers are new, they have been seen afterwards, and no other record has been used. -/
structure Accounts (p : Progress) (ids : List String) (p' : Progress) : Prop where
  seen : p'.seen.Perm (ids ++ p.seen)
  nodup : p.seen.Nodup → p'.seen.Nodup
  used : p'.used ⊆ ids ++ p.used

theorem Accounts.refl (p : Progress) : Accounts p [] p :=
  ⟨.refl _, fun h => h, List.Subset.refl _⟩

variable {p p' : Progress}

theorem Accounts.trans {p₁ : Progress} {ids ids' : List String} (h : Accounts p ids p₁)
    (h' : Accounts p₁ ids' p') : Accounts p (ids ++ ids') p' := by
  refine ⟨?_, fun hp => h'.nodup (h.nodup hp), fun id hid => ?_⟩
  · have hseen : p'.seen.Perm (ids' ++ ids ++ p.seen) := by
      rw [List.append_assoc]
      exact h'.seen.trans (h.seen.append_left ids')
    exact hseen.trans (List.perm_append_comm.append_right p.seen)
  · have hid := h'.used hid
    have hsubset := @h.used id
    simp only [List.mem_append] at hid hsubset ⊢
    tauto

theorem Builds.accounts {build : Json → Building Block} {xs : List (Step × Json)} {bs : List (Step × Block)}
    (h : Builds build xs p bs p')
    (hbuild : ∀ s t, (s, t) ∈ xs → ∀ {p c p'}, Yields (build t) p c p' → Accounts p c.ids p') :
    Accounts p (bs.flatMap fun entry => entry.2.ids) p' := by
  induction h with
  | nil p => exact Accounts.refl p
  | cons hfirst hrest ih =>
    rw [List.flatMap_cons]
    refine (hbuild _ _ List.mem_cons_self hfirst).trans (ih fun s t hmem => ?_)
    exact hbuild s t (List.mem_cons_of_mem _ hmem)

theorem Builds.forall_mem {build : Json → Building Block} {xs : List (Step × Json)}
    {bs : List (Step × Block)} {motive : Step → Block → Prop} (h : Builds build xs p bs p')
    (hbuild : ∀ s t, (s, t) ∈ xs → ∀ {p c p'}, Yields (build t) p c p' → motive s c) :
    ∀ s c, (s, c) ∈ bs → motive s c := by
  induction h with
  | nil p => simp
  | cons hfirst hrest ih =>
    intro s c hmem
    rcases List.mem_cons.mp hmem with e | hmem
    · cases e
      exact hbuild _ _ List.mem_cons_self hfirst
    · exact ih (fun s t hmem => hbuild s t (List.mem_cons_of_mem _ hmem)) s c hmem

/-! ## Runs -/

section Runs

variable {records : Records} {follow : Follow} {p p' : Progress} {b : Block}

def PartBuilt (records : Records) (o : Place) (p : Progress) (c : Block) (p' : Progress) : Prop :=
  (∃ o', Origin records o o' ∧ Built records o' c) ∧ Accounts p c.ids p'

variable {v : Json} {id : String} {i : Nat}

theorem assemble_built (hkeyed : Keyed records) {o : Place}
    (hat : records.at? o = some v) (hobject : v.isObject = true) (hv : v.Ordered)
    (hown : ∀ own, v.getText? "id" = some own → id = own)
    (hroot : o.steps = [] → ∃ w, records[o.tree]? = some (id, w)) (hnested : o.steps ≠ [] → id ∉ records.ids)
    (hparts : ∀ s t, v.part? s = some t → ∀ {p c p'}, Yields (buildTarget records follow id t) p c p' →
      PartBuilt records (o.step s) p c p') (h : Yields (assemble id v (partsOf records follow id v.members)) p b p') :
    Built records o b ∧ Accounts p b.ids p' := by
  obtain ⟨hseen, hhead, hbuilds⟩ := assemble_yields hv h
  obtain rfl := hhead.id_eq
  have hentries : ∀ s t, (s, t) ∈ v.entries → ∀ {p c p'}, Yields (buildTarget records follow b.id t) p c p' →
      PartBuilt records (o.step s) p c p' := fun s t hmem => hparts s t (hv.mem_entries_iff.mp hmem)
  have hbuilt : ∀ s c, (s, c) ∈ b.entries → ∃ o', Origin records (o.step s) o' ∧ Built records o' c :=
    hbuilds.forall_mem fun s t hmem _ _ _ hc => (hentries s t hmem hc).1
  refine ⟨.intro ⟨hat, hobject, hv, hhead, hown, hroot, hnested, hbuilds.steps, ?_⟩ ?_, ?_⟩
  · intro s t hmem
    have hs : s ∈ b.entries.map Prod.fst := hbuilds.steps ▸ List.mem_map_of_mem hmem
    obtain ⟨⟨_, c⟩, hc, rfl⟩ := List.mem_map.mp hs
    obtain ⟨o', ho', -⟩ := hbuilt _ c hc
    exact ⟨o', ho'⟩
  · intro s c o' hmem ho'
    obtain ⟨o'', ho'', hc⟩ := hbuilt s c hmem
    rwa [ho'.eq hkeyed.nodup ho'']
  · have haccounts := hbuilds.accounts fun s t hmem _ _ _ hc => (hentries s t hmem hc).2
    rw [ids_eq]
    refine ⟨haccounts.seen.trans List.perm_middle, fun hp => ?_, fun id hid => ?_⟩
    · exact haccounts.nodup (List.nodup_cons.mpr ⟨hseen, hp⟩)
    · exact List.mem_cons_of_mem _ (haccounts.used hid)

theorem buildTarget_built (hkeyed : Keyed records)
    (hfollow : ∀ {id v i p c p'}, records[i]? = some (id, v) → Yields (follow id v) p c p' →
      Built records ⟨i, []⟩ c ∧ Accounts p c.ids p')
    {t : Json} (ht : t.Ordered) {parent : String} {o : Place} {s : Step} (hat : records.at? (o.step s) = some t)
    (h : Yields (buildTarget records follow parent t) p b p') : PartBuilt records (o.step s) p b p' := by
  induction t using Json.part_induct generalizing parent o s p b p' with
  | h t ih =>
    rcases text_or_object_of_buildTarget h with ⟨id, rfl⟩ | hobject
    · obtain ⟨record, hget, h⟩ := buildTarget_text_iff.mp h
      obtain ⟨i, hi⟩ := List.mem_iff_getElem?.mp (Dict.mem_of_get? hget)
      obtain ⟨hbuilt, haccounts⟩ := hfollow hi h
      exact ⟨⟨⟨i, []⟩, .reference hat hi, hbuilt⟩, haccounts⟩
    · obtain ⟨id, p₁, hid, hnew, h⟩ := (buildTarget_object_iff hobject).mp h
      obtain ⟨hused, hseen, hown⟩ := nestedId_yields hid
      have hparts : ∀ s' t', t.part? s' = some t' → ∀ {p c p'}, Yields (buildTarget records follow id t') p c p' →
          PartBuilt records ((o.step s).step s') p c p' := by
        intro s' t' hpart p c p' hc
        exact ih s' t' hpart (ht.part? hpart) ((Place.find?_step_of_find? hat).trans hpart) hc
      obtain ⟨hbuilt, haccounts⟩ := assemble_built hkeyed hat hobject ht hown
        (fun hroot => absurd hroot (Place.step_ne_root o s)) (fun _ => hnew) hparts h
      refine ⟨⟨o.step s, .inPlace hat hobject, hbuilt⟩, ?_⟩
      obtain ⟨hperm, hnodup, hsubset⟩ := haccounts
      rw [hseen] at hperm hnodup
      rw [hused] at hsubset
      exact ⟨hperm, hnodup, hsubset⟩

theorem at?_root (h : records[i]? = some (id, v)) : records.at? ⟨i, []⟩ = some v := by
  simp [Records.at?, h]

theorem Built.accounts {used : List String} (hb : Built records ⟨i, []⟩ b)
    (hi : records[i]? = some (id, v)) (h : Accounts { p with used := id :: used } b.ids p') :
    Accounts { p with used } b.ids p' := by
  refine ⟨h.seen, h.nodup, fun x hx => ?_⟩
  have hid : id ∈ b.ids := by
    cases hb with
    | intro hmatches _ =>
      obtain ⟨w, hw⟩ := hmatches.root rfl
      cases hi.symm.trans hw
      exact id_mem_ids b
  rcases List.mem_append.mp (h.used hx) with hx | hx
  · exact List.mem_append_left _ hx
  · rcases List.mem_cons.mp hx with rfl | hx
    · exact List.mem_append_left _ hid
    · exact List.mem_append_right _ hx

theorem buildRecord_built (hkeyed : Keyed records) (hordered : ∀ record ∈ records, record.2.Ordered)
    {limit : Nat} {path : List String} (hi : records[i]? = some (id, v))
    (h : Yields (buildRecord records limit path id v) p b p') : Built records ⟨i, []⟩ b ∧ Accounts p b.ids p' := by
  induction limit generalizing path id v i p b p' with
  | zero => exact (yields_throw_iff.mp h).elim
  | succ limit ih =>
    rw [buildRecord_succ] at h
    have hmem := List.mem_of_getElem? hi
    have hv : v.Ordered := hordered _ hmem
    have hfollow : ∀ {id' v' i' p c p'}, records[i']? = some (id', v') →
        Yields (followFrom records limit (id :: path) id' v') p c p' →
        Built records ⟨i', []⟩ c ∧ Accounts p c.ids p' := by
      intro id' v' i' p c p' hi' hc
      obtain ⟨-, -, hc⟩ := followFrom_yields_iff.mp hc
      obtain ⟨hbuilt, haccounts⟩ := ih hi' hc
      exact ⟨hbuilt, hbuilt.accounts hi' haccounts⟩
    refine assemble_built hkeyed (at?_root hi) (hkeyed.objects _ hmem) hv (hkeyed.own _ hmem)
      (fun _ => ⟨v, hi⟩) (fun hne => absurd rfl hne) ?_ h
    intro s t hpart p c p' hc
    exact buildTarget_built hkeyed hfollow (hv.part? hpart) ((Place.find?_step_of_find? (at?_root hi)).trans hpart) hc

end Runs

/-! ## Roots -/

/-- The numbers, in ascending order, of all records from `start` on whose identifiers no reference names. -/
structure Unnamed (records : Records) (referenced : List String) (start : Nat) (roots : List Nat) : Prop where
  ascending : roots.Pairwise (· < ·)
  mem_iff : ∀ i, i ∈ roots ↔ start ≤ i ∧ ∃ id v, records[i]? = some (id, v) ∧ id ∉ referenced

section Roots

variable {records : Records} {referenced : List String} {start : Nat} {roots : List Nat} {id : String} {v : Json}

theorem Unnamed.skip (h : Unnamed records referenced (start + 1) roots)
    (hstart : records[start]? = some (id, v)) (hid : id ∈ referenced) : Unnamed records referenced start roots := by
  refine ⟨h.ascending, fun i => (h.mem_iff i).trans ⟨fun hi => ⟨by omega, hi.2⟩, ?_⟩⟩
  rintro ⟨hle, id', v', hi, hnew⟩
  have hne : i ≠ start := by
    rintro rfl
    cases hstart.symm.trans hi
    exact hnew hid
  exact ⟨by omega, id', v', hi, hnew⟩

theorem Unnamed.cons (h : Unnamed records referenced (start + 1) roots)
    (hstart : records[start]? = some (id, v)) (hid : id ∉ referenced) :
    Unnamed records referenced start (start :: roots) := by
  refine ⟨List.pairwise_cons.mpr ⟨fun i hi => ((h.mem_iff i).mp hi).1, h.ascending⟩, fun i => ?_⟩
  rw [List.mem_cons, h.mem_iff]
  constructor
  · rintro (rfl | ⟨hle, hi⟩)
    · exact ⟨Nat.le_refl _, id, v, hstart, hid⟩
    · exact ⟨by omega, hi⟩
  · rintro ⟨hle, hi⟩
    by_cases e : i = start
    · exact .inl e
    · exact .inr ⟨by omega, hi⟩

theorem buildRoots_built (hkeyed : Keyed records) (hordered : ∀ record ∈ records, record.2.Ordered)
    {done rest : Records} (hsplit : records = done ++ rest) {p p' : Progress} {bs : List Block}
    (h : Yields (buildRoots records referenced rest) p bs p') :
    ∃ roots, Unnamed records referenced done.length roots ∧
      List.Forall₂ (fun i b => Built records ⟨i, []⟩ b) roots bs ∧ Accounts p (bs.flatMap ids) p' := by
  induction rest generalizing done p bs with
  | nil =>
    obtain ⟨rfl, rfl⟩ := yields_pure_iff.mp h
    refine ⟨[], ⟨.nil, fun i => ?_⟩, .nil, Accounts.refl _⟩
    have hlength : records.length = done.length := by simp [hsplit]
    simp only [List.not_mem_nil, false_iff, not_and]
    rintro hle ⟨id, v, hi, -⟩
    obtain ⟨hlt, -⟩ := List.getElem?_eq_some_iff.mp hi
    omega
  | cons record rest ih =>
    obtain ⟨id, v⟩ := record
    have hstart : records[done.length]? = some (id, v) := by simp [hsplit]
    have hsplit' : records = (done ++ [(id, v)]) ++ rest := by simp [hsplit]
    have hlength : (done ++ [(id, v)]).length = done.length + 1 := by simp
    rw [buildRoots_cons_iff] at h
    by_cases hid : id ∈ referenced
    · rw [if_pos hid] at h
      obtain ⟨roots, hroots, hbuilt, haccounts⟩ := ih hsplit' h
      rw [hlength] at hroots
      exact ⟨roots, hroots.skip hstart hid, hbuilt, haccounts⟩
    · rw [if_neg hid] at h
      obtain ⟨b, p₁, others, hb, hothers, rfl⟩ := h
      obtain ⟨roots, hroots, hbuilt, haccounts⟩ := ih hsplit' hothers
      rw [hlength] at hroots
      obtain ⟨hfirst, hmarks⟩ := buildRecord_built hkeyed hordered hstart hb
      refine ⟨done.length :: roots, hroots.cons hstart hid, .cons hfirst hbuilt, ?_⟩
      rw [List.flatMap_cons]
      exact (hfirst.accounts hstart hmarks).trans haccounts

end Roots

end Blockwork.Block
