import Blockwork.Proofs.Places
import Blockwork.Proofs.Runs

/-! # Runs that build blocks

Building keeps track of its progress and can fail. Here every builder is described by its successful runs.
-/

namespace Blockwork.Block

set_option autoImplicit false

variable {p p' : Progress}

/-! ## Marks -/

variable {id : String} {records : Records} {v : Json} {count : Nat} {values : List Json}

theorem see_yields_iff {u : Unit} : Yields (see id) p u p' ↔ id ∉ p.seen ∧ p' = { p with seen := id :: p.seen } := by
  unfold see
  rw [yields_get_bind_iff, yields_guard_iff, yields_set_iff, List.contains_iff_mem]

theorem use_yields_iff {u : Unit} : Yields (use id) p u p' ↔ id ∉ p.used ∧ p' = { p with used := id :: p.used } := by
  unfold use
  rw [yields_get_bind_iff, yields_guard_iff, yields_set_iff, List.contains_iff_mem]

theorem nestedId_yields (h : Yields (nestedId records v) p id p') :
    p'.used = p.used ∧ p'.seen = p.seen ∧ ∀ own, v.getText? "id" = some own → id = own := by
  unfold nestedId at h
  split at h
  · next own hown =>
    obtain ⟨rfl, rfl⟩ := yields_pure_iff.mp h
    refine ⟨rfl, rfl, fun own' hown' => ?_⟩
    exact Option.some.inj (hown.symm.trans hown')
  · next hnone =>
    rw [yields_get_bind_iff, yields_bind_iff] at h
    obtain ⟨u, p₁, hset, h⟩ := h
    obtain ⟨rfl, rfl⟩ := yields_pure_iff.mp h
    rw [yields_set_iff.mp hset]
    refine ⟨rfl, rfl, fun own hown => ?_⟩
    rw [hnone] at hown
    cases hown

theorem nestedId_of_own (h : v.getText? "id" = some id) : Yields (nestedId records v) p id p := by
  unfold nestedId
  rw [h]
  exact yields_pure_iff.mpr ⟨rfl, rfl⟩

/-! ## Parts -/

/-- Parts are built one after the other. -/
inductive Builds (build : Json → Building Block) :
    List (Step × Json) → Progress → List (Step × Block) → Progress → Prop where
  | nil (p : Progress) : Builds build [] p [] p
  | cons {s : Step} {t : Json} {rest : List (Step × Json)} {b : Block} {others : List (Step × Block)}
    {p p₁ p' : Progress} (hfirst : Yields (build t) p b p₁) (hrest : Builds build rest p₁ others p') :
    Builds build ((s, t) :: rest) p ((s, b) :: others) p'

section Parts

variable {build : Json → Building Block} {xs ys : List (Step × Json)} {bs : List (Step × Block)}

theorem Builds.steps (h : Builds build xs p bs p') : bs.map Prod.fst = xs.map Prod.fst := by
  induction h with
  | nil => rfl
  | cons _ _ ih => rw [List.map_cons, List.map_cons, ih]

theorem builds_append_iff :
    Builds build (xs ++ ys) p bs p' ↔
      ∃ cs p₁ ds, Builds build xs p cs p₁ ∧ Builds build ys p₁ ds p' ∧ bs = cs ++ ds := by
  induction xs generalizing p bs with
  | nil =>
    constructor
    · exact fun h => ⟨[], p, bs, .nil p, h, rfl⟩
    · rintro ⟨cs, p₁, ds, hx, hy, rfl⟩
      cases hx
      exact hy
  | cons x xs ih =>
    constructor
    · intro h
      cases h with
      | cons hfirst hrest =>
        obtain ⟨cs, p₁, ds, hx, hy, rfl⟩ := ih.mp hrest
        exact ⟨_ :: cs, p₁, ds, .cons hfirst hx, hy, rfl⟩
    · rintro ⟨cs, p₁, ds, hx, hy, rfl⟩
      cases hx with
      | cons hfirst hrest => exact .cons hfirst (ih.mpr ⟨_, p₁, ds, hrest, hy, rfl⟩)

variable {records : Records} {follow : Follow} {parent : String}

theorem builds_slots_iff {slots : List (String × Json)} (step : String → Step) :
    Builds (buildTarget records follow parent)
        ((slots.filter fun slot => !slot.2.isNull).map fun slot => (step slot.1, slot.2)) p bs p' ↔
      ∃ values, Yields (buildSlots records follow parent slots) p values p' ∧
        bs = values.map fun slot => (step slot.1, slot.2) := by
  induction slots generalizing p bs with
  | nil =>
    simp only [buildSlots, yields_pure_iff]
    constructor
    · intro h
      cases h
      exact ⟨[], ⟨rfl, rfl⟩, rfl⟩
    · rintro ⟨values, ⟨rfl, rfl⟩, rfl⟩
      exact .nil _
  | cons slot slots ih =>
    obtain ⟨name, t⟩ := slot
    rw [buildSlots]
    cases hnull : t.isNull with
    | true => simpa [hnull] using ih
    | false =>
      simp only [hnull, Bool.not_false, List.filter_cons_of_pos, List.map_cons, Bool.false_eq_true, if_false,
        yields_bind_iff, yields_pure_iff]
      constructor
      · intro h
        cases h with
        | cons hfirst hrest =>
          obtain ⟨values, hvalues, rfl⟩ := ih.mp hrest
          exact ⟨_, ⟨_, _, hfirst, _, _, hvalues, rfl, rfl⟩, rfl⟩
      · rintro ⟨values, ⟨b, p₁, hfirst, others, p₂, hrest, rfl, rfl⟩, rfl⟩
        exact .cons hfirst (ih.mpr ⟨others, hrest, rfl⟩)

theorem buildDict_eq (x : Json) : buildDict records follow parent x = buildSlots records follow parent x.members := by
  cases x with
  | object members => rw [buildDict, Json.members]
  | _ => simp [buildDict, Json.members, buildSlots]

theorem partsOf_eq {members : List (String × Json)} (hkeys : (Dict.keys members).Nodup) :
    partsOf records follow parent members =
      { values := buildSlots records follow parent (((Dict.get? "value-slots" members).map Json.members).getD [])
        statements :=
          buildSlots records follow parent (((Dict.get? "statement-slots" members).map Json.members).getD [])
        next :=
          match (Dict.get? "next" members).filter fun t => !t.isNull with
          | none => pure none
          | some t => some <$> buildTarget records follow parent t } := by
  induction members with
  | nil => simp [partsOf, Dict.get?, buildSlots]
  | cons member members ih =>
    obtain ⟨key, x⟩ := member
    obtain ⟨hkey, hkeys⟩ := List.nodup_cons.mp hkeys
    rw [partsOf, ih hkeys]
    by_cases hvalues : key = "value-slots"
    · subst hvalues
      simp [Dict.get?, buildDict_eq]
    · by_cases hstatements : key = "statement-slots"
      · subst hstatements
        simp [Dict.get?, buildDict_eq]
      · by_cases hnext : key = "next"
        · subst hnext
          have hrest : Dict.get? "next" members = none := Dict.get?_eq_none_iff.mpr hkey
          cases hnull : x.isNull <;> simp [Dict.get?, hrest, hnull, Option.filter]
        · simp [Dict.get?, hvalues, hstatements, hnext]

end Parts

/-! ## Blocks -/

/-- The block has the tag, the fields and the attributes of a record. -/
structure Heads (b : Block) (id : String) (v : Json) : Prop where
  tag : v.getText? "type" = some b.tag
  fields : textsAt v id "fields" = .ok b.fields
  attrs : ∃ mutation, textsAt v id "mutation" = .ok mutation ∧ b.attrs = attributesOf v id mutation

theorem Heads.id_eq {b : Block} (h : b.Heads id v) : b.id = id := by
  obtain ⟨mutation, -, hattrs⟩ := h.attrs
  rw [Block.id, hattrs]
  rfl

section Blocks

variable {records : Records} {follow : Follow} {id : String} {v : Json}

theorem builds_entries_iff (hv : v.Ordered) {bs : List (Step × Block)} :
    Builds (buildTarget records follow id) v.entries p bs p' ↔
      ∃ values p₁ statements p₂ next,
        Yields (partsOf records follow id v.members).values p values p₁ ∧
        Yields (partsOf records follow id v.members).statements p₁ statements p₂ ∧
        Yields (partsOf records follow id v.members).next p₂ next p' ∧
        bs = Step.label values statements next := by
  have hnext : ∀ {p : Progress} {ds : List (Step × Block)},
      Builds (buildTarget records follow id) ((v.part? .next).toList.map fun t => (.next, t)) p ds p' ↔
        ∃ next, Yields (partsOf records follow id v.members).next p next p' ∧
          ds = next.toList.map fun c => (.next, c) := by
    intro p ds
    rw [partsOf_eq hv.sorted_members.nodup_keys]
    simp only [← Json.get?_eq]
    change _ ↔ ∃ next, Yields (match v.part? .next with | none => _ | some t => _) _ _ _ ∧ _
    cases v.part? .next with
    | none =>
      simp only [yields_pure_iff]
      constructor
      · intro h
        cases h
        exact ⟨none, ⟨rfl, rfl⟩, rfl⟩
      · rintro ⟨next, ⟨rfl, rfl⟩, rfl⟩
        exact .nil _
    | some t =>
      simp only [yields_map_iff]
      constructor
      · intro h
        cases h with
        | cons hfirst hrest =>
          cases hrest
          exact ⟨some _, ⟨_, hfirst, rfl⟩, rfl⟩
      · rintro ⟨next, ⟨c, hc, rfl⟩, rfl⟩
        exact .cons hc (.nil _)
  unfold Json.entries Step.label Json.slots
  simp only [builds_append_iff, builds_slots_iff, hnext]
  simp only [partsOf_eq hv.sorted_members.nodup_keys, ← Json.get?_eq]
  constructor
  · rintro ⟨_, p₂, _, ⟨_, p₁, _, ⟨values, hvalues, rfl⟩, ⟨statements, hstatements, rfl⟩, rfl⟩,
      ⟨next, hnext, rfl⟩, rfl⟩
    exact ⟨values, p₁, statements, p₂, next, hvalues, hstatements, hnext, rfl⟩
  · rintro ⟨values, p₁, statements, p₂, next, hvalues, hstatements, hnext, rfl⟩
    exact ⟨_, p₂, _, ⟨_, p₁, _, ⟨values, hvalues, rfl⟩, ⟨statements, hstatements, rfl⟩, rfl⟩, ⟨next, hnext, rfl⟩, rfl⟩

variable {b : Block} {parent : String}

theorem assemble_yields (hv : v.Ordered) (h : Yields (assemble id v (partsOf records follow id v.members)) p b p') :
    id ∉ p.seen ∧ b.Heads id v ∧
      Builds (buildTarget records follow id) v.entries { p with seen := id :: p.seen } b.entries p' := by
  unfold assemble at h
  obtain ⟨u, p₁, hsee, h⟩ := yields_bind_iff.mp h
  obtain ⟨hseen, rfl⟩ := see_yields_iff.mp hsee
  split at h
  · exact (yields_throw_iff.mp h).elim
  · next tag htag =>
    simp only [yields_bind_iff, yields_lift_iff, yields_pure_iff] at h
    obtain ⟨fields, _, ⟨hfields, rfl⟩, mutation, _, ⟨hmutation, rfl⟩, values, p₁, hvalues, statements, p₂,
      hstatements, next, p₃, hnext, rfl, rfl⟩ := h
    refine ⟨hseen, ⟨htag, hfields, mutation, hmutation, rfl⟩, ?_⟩
    exact (builds_entries_iff hv).mpr ⟨values, p₁, statements, p₂, next, hvalues, hstatements, hnext, rfl⟩

theorem exists_assemble (hv : v.Ordered) {tag : String} {fields mutation : Dict String}
    {bs : List (Step × Block)} (hseen : id ∉ p.seen) (htag : v.getText? "type" = some tag)
    (hfields : textsAt v id "fields" = .ok fields) (hmutation : textsAt v id "mutation" = .ok mutation)
    (h : Builds (buildTarget records follow id) v.entries { p with seen := id :: p.seen } bs p') :
    ∃ b, Yields (assemble id v (partsOf records follow id v.members)) p b p' := by
  obtain ⟨values, p₁, statements, p₂, next, hvalues, hstatements, hnext, rfl⟩ := (builds_entries_iff hv).mp h
  refine ⟨{ tag, attrs := attributesOf v id mutation, fields, values, statements, next }, ?_⟩
  refine yields_bind_iff.mpr ⟨(), _, see_yields_iff.mpr ⟨hseen, rfl⟩, ?_⟩
  rw [htag]
  simp only [yields_bind_iff, yields_lift_iff, yields_pure_iff]
  exact ⟨fields, _, ⟨hfields, rfl⟩, mutation, _, ⟨hmutation, rfl⟩, values, p₁, hvalues, statements, p₂,
    hstatements, next, p', hnext, rfl, rfl⟩

theorem buildTarget_text_iff : Yields (buildTarget records follow parent (.text id)) p b p' ↔
      ∃ record, Dict.get? id records = some record ∧ Yields (follow id record) p b p' := by
  rw [buildTarget]
  cases Dict.get? id records with
  | none => simp [yields_throw_iff]
  | some record => simp

theorem buildTarget_object_iff (hv : v.isObject = true) : Yields (buildTarget records follow parent v) p b p' ↔
      ∃ id p₁, Yields (nestedId records v) p id p₁ ∧ id ∉ records.ids ∧
        Yields (assemble id v (partsOf records follow id v.members)) p₁ b p' := by
  cases v with
  | object members =>
    rw [buildTarget]
    simp only [yields_bind_iff, yields_guard_iff, List.contains_iff_mem]
    rfl
  | _ => cases hv

theorem text_or_object_of_buildTarget
    (h : Yields (buildTarget records follow parent v) p b p') : (∃ id, v = .text id) ∨ v.isObject = true := by
  cases v with
  | text id => exact .inl ⟨id, rfl⟩
  | object members => exact .inr rfl
  | _ => simp [buildTarget, yields_throw_iff] at h

def followFrom (records : Records) (limit : Nat) (path : List String) : Follow := fun id record =>
  if path.contains id then throw (.malformed id .cycle)
  else do
    use id
    buildRecord records limit path id record

theorem buildRecord_succ (limit : Nat) (path : List String) :
    buildRecord records (limit + 1) path id v =
      assemble id v (partsOf records (followFrom records limit (id :: path)) id v.members) := by
  rw [buildRecord]
  rfl

theorem followFrom_yields_iff {limit : Nat} {path : List String} : Yields (followFrom records limit path id v) p b p' ↔
      id ∉ path ∧ id ∉ p.used ∧
        Yields (buildRecord records limit path id v) { p with used := id :: p.used } b p' := by
  unfold followFrom
  by_cases h : id ∈ path
  · simp [h, yields_throw_iff]
  · simp only [List.contains_iff_mem, h, if_false, yields_bind_iff, use_yields_iff, not_false_eq_true, true_and]
    constructor
    · rintro ⟨u, p₁, ⟨hused, rfl⟩, h⟩
      exact ⟨hused, h⟩
    · rintro ⟨hused, h⟩
      exact ⟨(), _, ⟨hused, rfl⟩, h⟩

end Blocks

/-! ## Records -/

/-- Records have different identifiers, their own ones where they write some. -/
structure Keyed (records : Records) : Prop where
  nodup : records.ids.Nodup
  objects : ∀ record ∈ records, record.2.isObject = true
  own : ∀ record ∈ records, ∀ id, record.2.getText? "id" = some id → record.1 = id

theorem Keyed.reverse (h : Keyed records) : Keyed records.reverse := by
  refine ⟨?_, fun record hr => h.objects record (List.mem_reverse.mp hr),
    fun record hr => h.own record (List.mem_reverse.mp hr)⟩
  rw [Records.ids, List.map_reverse]
  exact List.nodup_reverse.mpr h.nodup

theorem recordsFrom_ok {explicit : List String} {vs : List Json} {index count' : Nat}
    {done : Records} (hdone : Keyed done) (h : recordsFrom explicit index count done vs = .ok (records, count')) :
    Keyed records ∧ records.map Prod.snd = (done.map Prod.snd).reverse ++ vs := by
  induction vs generalizing index count done with
  | nil =>
    cases h
    exact ⟨hdone.reverse, by simp⟩
  | cons v vs ih =>
    rw [recordsFrom] at h
    cases hobject : v.isObject with
    | false => simp [hobject] at h
    | true =>
      have hgo : ∀ {id : String} {count₁ : Nat}, (∀ own, v.getText? "id" = some own → id = own) →
          (if done.ids.contains id then .error (.malformed id .duplicateId)
            else recordsFrom explicit (index + 1) count₁ ((id, v) :: done) vs) = .ok (records, count') →
          Keyed records ∧ records.map Prod.snd = (done.map Prod.snd).reverse ++ v :: vs := by
        intro id count₁ hown h
        split at h
        · cases h
        · next hnew =>
          rw [List.contains_iff_mem] at hnew
          have hdone' : Keyed ((id, v) :: done) := by
            exact ⟨List.nodup_cons.mpr ⟨hnew, hdone.nodup⟩, List.forall_mem_cons.mpr ⟨hobject, hdone.objects⟩,
              List.forall_mem_cons.mpr ⟨hown, hdone.own⟩⟩
          obtain ⟨hkeyed, hvalues⟩ := ih hdone' h
          exact ⟨hkeyed, by simp [hvalues]⟩
      simp only [hobject, if_true] at h
      cases hid : v.getText? "id" with
      | none =>
        rw [hid] at h
        exact hgo (by simp [hid]) h
      | some id =>
        rw [hid] at h
        exact hgo (by simp [hid]) h

theorem recordsOf_ok
    (h : recordsOf values = .ok (records, count)) : Keyed records ∧ records.map Prod.snd = values := by
  have hnil : Keyed [] := ⟨List.nodup_nil, by simp, by simp⟩
  exact recordsFrom_ok hnil h

theorem exists_recordsFrom {explicit : List String} {vs : List Json} {index : Nat} {done : Records}
    (hvs : ∀ v ∈ vs, v.isObject = true ∧ ∃ id, v.getText? "id" = some id)
    (hnodup : (done.ids ++ vs.filterMap (·.getText? "id")).Nodup) :
    ∃ records count', recordsFrom explicit index count done vs = .ok (records, count') := by
  induction vs generalizing index done with
  | nil => exact ⟨_, _, rfl⟩
  | cons v vs ih =>
    obtain ⟨hobject, id, hid⟩ := hvs v List.mem_cons_self
    rw [List.filterMap_cons_some hid] at hnodup
    have hperm : (done.ids ++ id :: vs.filterMap (·.getText? "id")).Perm
        (Records.ids ((id, v) :: done) ++ vs.filterMap (·.getText? "id")) := List.perm_middle
    have hnew : id ∉ done.ids := by
      intro hmem
      have := hperm.nodup_iff.mp hnodup
      exact (List.nodup_cons.mp this).1 (List.mem_append_left _ hmem)
    rw [recordsFrom]
    simp only [hobject, if_true, hid, List.contains_iff_mem, hnew, if_false]
    exact ih (fun v hv => hvs v (List.mem_cons_of_mem _ hv)) (hperm.nodup_iff.mp hnodup)

theorem exists_recordsOf (hvalues : ∀ v ∈ values, v.isObject = true ∧ ∃ id, v.getText? "id" = some id)
    (hnodup : (values.filterMap (·.getText? "id")).Nodup) : ∃ records count, recordsOf values = .ok (records, count) :=
  exists_recordsFrom hvalues hnodup

/-! ## Roots -/

theorem buildRoots_cons_iff {rest : Records} {referenced : List String} {bs : List Block} :
    Yields (buildRoots records referenced ((id, v) :: rest)) p bs p' ↔
      if id ∈ referenced then Yields (buildRoots records referenced rest) p bs p'
      else ∃ b p₁ others,
        Yields (buildRecord records records.length [] id v) { p with used := id :: p.used } b p₁ ∧
        Yields (buildRoots records referenced rest) p₁ others p' ∧ bs = b :: others := by
  rw [buildRoots]
  by_cases h : id ∈ referenced
  · simp [h]
  · simp only [List.contains_iff_mem, h, if_false, yields_bind_iff, yields_pure_iff]
    constructor
    · rintro ⟨u, p₀, hmodify, b, p₁, hb, others, p₂, hothers, rfl, rfl⟩
      cases hmodify
      exact ⟨b, p₁, others, hb, hothers, rfl⟩
    · rintro ⟨b, p₁, others, hb, hothers, rfl⟩
      exact ⟨⟨⟩, _, rfl, b, p₁, hb, others, p', hothers, rfl, rfl⟩

theorem ofRecords_ok_iff {bs : List Block} : ofRecords values = .ok bs ↔ ∃ records count p,
      recordsOf values = .ok (records, count) ∧
      Yields (buildRoots records (values.flatMap slotReferences) records) { used := [], seen := [], count } bs p ∧
      records.ids ⊆ p.used := by
  unfold ofRecords
  simp only [Except.bind_ok_iff, Prod.exists]
  refine exists_congr fun records => exists_congr fun count => ?_
  constructor
  · rintro ⟨hrecords, roots, p, hroots, h⟩
    refine ⟨p, hrecords, ?_⟩
    split at h
    · cases h
    · next hnone =>
      cases h
      refine ⟨hroots, fun id hid => ?_⟩
      simpa using List.find?_eq_none.mp hnone id hid
  · rintro ⟨p, hrecords, hroots, hused⟩
    refine ⟨hrecords, bs, p, hroots, ?_⟩
    have hnone : records.ids.find? (fun id => !p.used.contains id) = none := by
      rw [List.find?_eq_none]
      intro id hid
      simpa using hused hid
    rw [hnone]
    rfl

end Blockwork.Block
