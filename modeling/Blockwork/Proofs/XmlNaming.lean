import Mathlib.Data.List.Duplicate
import Mathlib.Data.List.Flatten
import Blockwork.Proofs.Arrangement
import Blockwork.Proofs.XmlBlocks
import Blockwork.Proofs.XmlRoutes

/-! # Names of elements in XML documents

Reading blocks is naming the elements of a route one after the other: an element keeps its own identifier, and another
one gets a fresh one.
-/

namespace Blockwork

set_option autoImplicit false

open List (forall_mem_cons map_cons mem_cons_self)

namespace Block

open Xml (Route)

/-! ## Naming elements -/

def nameXml (x : Xml) : XmlReading (Xml × String) := do
  let id ← xmlId x
  seeXml id
  return (x, id)

/-- The identifier of an element is its own. An element without one has a generated identifier that is not among
those that are written in the document. -/
structure Suits (written : List String) (named : Xml × String) : Prop where
  own : ∀ id, named.1.attr? "id" = some id → named.2 = id
  made : named.1.attr? "id" = none → (∃ n, named.2 = generatedId n) ∧ named.2 ∉ written

/-- The progress after elements were named whose own identifiers are `own`, in a document that writes `written`. -/
structure Naming (written own : List String) (p : XmlProgress) : Prop where
  avoids : written ⊆ p.taken
  seen : p.seen ⊆ p.taken
  shared : ∀ id ∈ p.seen, id ∈ written → id ∈ own
  nodup : p.seen.Nodup

section Naming

variable {written own : List String} {p p' : XmlProgress} {x : Xml} {e : Error}

theorem yields_xmlId {id : String} (h : Yields (xmlId x) p id p') :
    (x.attr? "id" = some id ∧ p' = p) ∨
      (x.attr? "id" = none ∧ (∃ n, id = generatedId n) ∧ id ∉ p.taken ∧ p'.seen = p.seen ∧ p'.taken = id :: p.taken) := by
  unfold xmlId at h
  split at h
  · next own hown =>
    obtain ⟨rfl, rfl⟩ := yields_pure_iff.mp h
    exact .inl ⟨hown, rfl⟩
  · next hown =>
    obtain ⟨_, _, hset, h⟩ := yields_bind_iff.mp (yields_get_bind_iff.mp h)
    obtain ⟨rfl, rfl⟩ := yields_pure_iff.mp h
    cases yields_set_iff.mp hset
    exact .inr ⟨hown, ⟨_, rfl⟩, generatedId_fresh_notMem p.count p.taken, rfl, rfl⟩

theorem fails_xmlId_iff : Fails (xmlId x) p e ↔ False := by
  refine iff_false_intro fun h => ?_
  unfold xmlId at h
  split at h
  · exact fails_pure_iff.mp h
  · rcases fails_bind_iff.mp (fails_get_bind_iff.mp h) with h | ⟨_, _, -, h⟩
    · exact fails_set_iff.mp h
    · exact fails_pure_iff.mp h

theorem fails_seeXml_iff {id : String} : Fails (seeXml id) p e ↔ id ∈ p.seen ∧ e = .malformed id .duplicateId := by
  unfold seeXml
  rw [fails_get_bind_iff, fails_guard_iff, List.contains_iff_mem, fails_set_iff]
  simp

theorem Naming.of_yields {named : Xml × String} (hp : Naming written own p) (hx : Registered written x)
    (h : Yields (nameXml x) p named p') :
    named.1 = x ∧ Suits written named ∧ p'.seen = named.2 :: p.seen ∧ Naming written (own ++ ownXmlIds [x]) p' := by
  obtain ⟨id, p₁, hid, h⟩ := yields_bind_iff.mp h
  obtain ⟨_, p₂, hsee, h⟩ := yields_bind_iff.mp h
  obtain ⟨rfl, rfl⟩ := yields_pure_iff.mp h
  obtain ⟨hnew, rfl⟩ := seeXml_yields_iff.mp hsee
  rcases yields_xmlId hid with ⟨hown, rfl⟩ | ⟨hown, hmade, hfree, hseen, htaken⟩
  · have hmem : id ∈ p₁.taken := hp.avoids (hx id hown)
    refine ⟨rfl, ⟨fun id' hid' => Option.some.inj (hown.symm.trans hid'), fun hnone => ?_⟩, rfl, ?_⟩
    · cases hown.symm.trans hnone
    · refine ⟨hp.avoids, List.cons_subset.mpr ⟨hmem, hp.seen⟩, fun s hs hw => ?_, List.nodup_cons.mpr ⟨hnew, hp.nodup⟩⟩
      rcases List.mem_cons.mp hs with rfl | hs
      · simp [ownXmlIds, hown]
      · exact List.mem_append_left _ (hp.shared s hs hw)
  · refine ⟨rfl, ⟨fun id' hid' => ?_, fun _ => ⟨hmade, fun hw => hfree (hp.avoids hw)⟩⟩, ?_, ?_⟩
    · cases hown.symm.trans hid'
    · exact congrArg (id :: ·) hseen
    · rw [hseen] at hnew
      refine ⟨?_, ?_, ?_, ?_⟩
      · change written ⊆ p₁.taken
        rw [htaken]
        exact fun s hs => List.mem_cons_of_mem _ (hp.avoids hs)
      · change id :: p₁.seen ⊆ p₁.taken
        rw [hseen, htaken]
        exact List.cons_subset_cons id hp.seen
      · intro s hs hw
        change s ∈ id :: p₁.seen at hs
        rw [hseen] at hs
        rcases List.mem_cons.mp hs with rfl | hs
        · exact absurd (hp.avoids hw) hfree
        · exact List.mem_append_left _ (hp.shared s hs hw)
      · change (id :: p₁.seen).Nodup
        rw [hseen]
        exact List.nodup_cons.mpr ⟨hnew, hp.nodup⟩

theorem Naming.of_fails (hp : Naming written own p) (hx : Registered written x) (h : Fails (nameXml x) p e) :
    ∃ id, e = .malformed id .duplicateId ∧ x.attr? "id" = some id ∧ id ∈ own := by
  rcases fails_bind_iff.mp h with h | ⟨id, p₁, hid, h⟩
  · exact (fails_xmlId_iff.mp h).elim
  rcases fails_bind_iff.mp h with h | ⟨_, _, -, h⟩
  · obtain ⟨hseen, rfl⟩ := fails_seeXml_iff.mp h
    rcases yields_xmlId hid with ⟨hown, rfl⟩ | ⟨-, -, hfree, hsame, -⟩
    · exact ⟨id, rfl, hown, hp.shared id hseen (hx id hown)⟩
    · rw [hsame] at hseen
      exact absurd (hp.seen hseen) hfree
  · exact (fails_pure_iff.mp h).elim

/-! ## Naming a list of elements -/

theorem Naming.of_yields_mapM {xs : List Xml} {named : List (Xml × String)} (hp : Naming written own p)
    (hxs : ∀ x ∈ xs, Registered written x) (h : Yields (xs.mapM nameXml) p named p') :
    named.map Prod.fst = xs ∧ (∀ pair ∈ named, Suits written pair) ∧
      p'.seen = (named.map Prod.snd).reverse ++ p.seen ∧ Naming written (own ++ ownXmlIds xs) p' := by
  induction xs generalizing p own named with
  | nil =>
    rw [List.mapM_nil] at h
    obtain ⟨rfl, rfl⟩ := yields_pure_iff.mp h
    refine ⟨rfl, fun pair hpair => ?_, rfl, ?_⟩
    · cases hpair
    · rw [ownXmlIds, List.filterMap_nil, List.append_nil]
      exact hp
  | cons x rest ih =>
    obtain ⟨hx, hrest⟩ := forall_mem_cons.mp hxs
    rw [List.mapM_cons] at h
    obtain ⟨first, p₁, hfirst, h⟩ := yields_bind_iff.mp h
    obtain ⟨others, p₂, hothers, h⟩ := yields_bind_iff.mp h
    obtain ⟨rfl, rfl⟩ := yields_pure_iff.mp h
    obtain ⟨rfl, hsuits, hseen, hp₁⟩ := hp.of_yields hx hfirst
    obtain ⟨hnames, hothers, hseen', hp'⟩ := ih hp₁ hrest hothers
    refine ⟨?_, forall_mem_cons.mpr ⟨hsuits, hothers⟩, ?_, ?_⟩
    · rw [map_cons, hnames]
    · rw [hseen', hseen, map_cons, List.reverse_cons, List.append_assoc, List.singleton_append]
    · rw [List.append_assoc, ownXmlIds_append, List.singleton_append] at hp'
      exact hp'

theorem Naming.of_fails_mapM {xs : List Xml} (hp : Naming written own p) (hxs : ∀ x ∈ xs, Registered written x)
    (h : Fails (xs.mapM nameXml) p e) :
    ∃ id, e = .malformed id .duplicateId ∧ List.Duplicate id (own ++ ownXmlIds xs) := by
  induction xs generalizing p own with
  | nil => exact (fails_pure_iff.mp h).elim
  | cons x rest ih =>
    obtain ⟨hx, hrest⟩ := forall_mem_cons.mp hxs
    rw [List.mapM_cons] at h
    rcases fails_bind_iff.mp h with h | ⟨first, p₁, hfirst, h⟩
    · obtain ⟨id, rfl, hid, hmem⟩ := hp.of_fails hx h
      refine ⟨id, rfl, List.duplicate_iff_sublist.mpr ?_⟩
      have hown : id ∈ ownXmlIds (x :: rest) := List.mem_filterMap.mpr ⟨x, mem_cons_self, hid⟩
      exact (List.singleton_sublist.mpr hmem).append (List.singleton_sublist.mpr hown)
    · rcases fails_bind_iff.mp h with h | ⟨_, _, -, h⟩
      · obtain ⟨id, rfl, hid⟩ := ih (hp.of_yields hx hfirst).2.2.2 hrest h
        rw [List.append_assoc, ownXmlIds_append, List.singleton_append] at hid
        exact ⟨id, rfl, hid⟩
      · exact (fails_pure_iff.mp h).elim

end Naming

variable {named : List (Xml × String)} {b c : Block}

theorem sublist_ownXmlIds {written : List String}
    (h : ∀ pair ∈ named, Suits written pair) : (ownXmlIds (named.map Prod.fst)).Sublist (named.map Prod.snd) := by
  induction named with
  | nil => exact List.Sublist.slnil
  | cons pair rest ih =>
    obtain ⟨hpair, hrest⟩ := forall_mem_cons.mp h
    rw [map_cons, map_cons, ownXmlIds, List.filterMap_cons]
    split
    · exact (ih hrest).cons _
    · next id hid =>
      rw [hpair.own id hid]
      exact (ih hrest).cons_cons id

/-! ## Runs that name the elements of a route -/

/-- The run names the elements of a route. Where a name is repeated it fails with that error. Otherwise it yields a
result if the route comes to its end, and else it fails as something is malformed. -/
structure Tracks {α : Type} (run : XmlReading α) (r : Route) (P : List (Xml × String) → α → Prop) : Prop where
  repeated : ∀ {p e}, Fails (r.elements.mapM nameXml) p e → Fails run p e
  whole : ∀ {p named p'}, r.whole = true → Yields (r.elements.mapM nameXml) p named p' → ∃ a, Yields run p a p' ∧ P named a
  stopped : ∀ {p named p'}, r.whole = false → Yields (r.elements.mapM nameXml) p named p' →
    ∃ id reason, Fails run p (.malformed id reason) ∧ reason ≠ .duplicateId

section Tracks

variable {α β : Type} {P : List (Xml × String) → α → Prop} {Q : List (Xml × String) → β → Prop}

theorem tracks_pure {a : α} (h : P [] a) : Tracks (pure a) .empty P := by
  refine ⟨fun he => (fails_pure_iff.mp he).elim, fun _ hnamed => ?_, nofun⟩
  obtain ⟨rfl, rfl⟩ := yields_pure_iff.mp hnamed
  exact ⟨a, yields_pure_iff.mpr ⟨rfl, rfl⟩, h⟩

theorem tracks_throw {id : String} {reason : GraphFault} (h : reason ≠ .duplicateId) :
    Tracks (throw (.malformed id reason)) .stop P := by
  refine ⟨fun he => (fails_pure_iff.mp he).elim, fun hwhole => ?_, fun _ _ => ?_⟩
  · cases hwhole
  · exact ⟨id, reason, fails_throw_iff.mpr rfl, h⟩

variable {run : XmlReading α} {r : Route}

theorem Tracks.bind {f : α → XmlReading β} {s : Route} (h : Tracks run r P)
    (hf : ∀ named a, P named a → Tracks (f a) s fun more b => Q (named ++ more) b) :
    Tracks (run >>= f) (r.andThen s) Q := by
  cases hwhole : r.whole with
  | true =>
    rw [Route.andThen, if_pos hwhole]
    refine ⟨fun he => ?_, fun hend hnamed => ?_, fun hend hnamed => ?_⟩
    · rw [List.mapM_append] at he
      rcases fails_bind_iff.mp he with he | ⟨named, p₁, hnamed, he⟩
      · exact fails_bind_iff.mpr (.inl (h.repeated he))
      · obtain ⟨a, hrun, ha⟩ := h.whole hwhole hnamed
        rcases fails_bind_iff.mp he with he | ⟨_, _, -, he⟩
        · exact fails_bind_iff.mpr (.inr ⟨a, p₁, hrun, (hf named a ha).repeated he⟩)
        · exact (fails_pure_iff.mp he).elim
    · rw [List.mapM_append] at hnamed
      obtain ⟨first, p₁, hfirst, hnamed⟩ := yields_bind_iff.mp hnamed
      obtain ⟨more, p₂, hmore, hnamed⟩ := yields_bind_iff.mp hnamed
      obtain ⟨rfl, rfl⟩ := yields_pure_iff.mp hnamed
      obtain ⟨a, hrun, ha⟩ := h.whole hwhole hfirst
      obtain ⟨b, hb, hQ⟩ := (hf first a ha).whole hend hmore
      exact ⟨b, yields_bind_iff.mpr ⟨a, p₁, hrun, hb⟩, hQ⟩
    · rw [List.mapM_append] at hnamed
      obtain ⟨first, p₁, hfirst, hnamed⟩ := yields_bind_iff.mp hnamed
      obtain ⟨more, p₂, hmore, -⟩ := yields_bind_iff.mp hnamed
      obtain ⟨a, hrun, ha⟩ := h.whole hwhole hfirst
      obtain ⟨id, reason, hb, hreason⟩ := (hf first a ha).stopped hend hmore
      exact ⟨id, reason, fails_bind_iff.mpr (.inr ⟨a, p₁, hrun, hb⟩), hreason⟩
  | false =>
    rw [Route.andThen, if_neg (by simp [hwhole])]
    refine ⟨fun he => fails_bind_iff.mpr (.inl (h.repeated he)), fun hend => ?_, fun _ hnamed => ?_⟩
    · cases hwhole.symm.trans hend
    · obtain ⟨id, reason, hrun, hreason⟩ := h.stopped hwhole hnamed
      exact ⟨id, reason, fails_bind_iff.mpr (.inl hrun), hreason⟩

theorem Tracks.map {f : α → β} (h : Tracks run r P)
    (hf : ∀ named a, P named a → Q named (f a)) : Tracks (run >>= fun a => pure (f a)) r Q := by
  rw [← Route.andThen_empty r]
  refine h.bind fun named a ha => tracks_pure ?_
  rw [List.append_nil]
  exact hf named a ha

theorem Tracks.mono {P' : List (Xml × String) → α → Prop} (h : Tracks run r P)
    (hP : ∀ named a, P named a → P' named a) : Tracks run r P' := by
  refine ⟨h.repeated, fun hwhole hnamed => ?_, h.stopped⟩
  obtain ⟨a, hrun, ha⟩ := h.whole hwhole hnamed
  exact ⟨a, hrun, hP _ a ha⟩

theorem tracks_nameXml (x : Xml) : Tracks (nameXml x) ⟨[x], true⟩ fun named pair => named = [pair] ∧ pair.1 = x := by
  have hmapM : [x].mapM nameXml = (nameXml x >>= fun pair => pure [pair]) := by simp
  refine ⟨fun he => ?_, fun _ hnamed => ?_, nofun⟩
  · rw [hmapM] at he
    rcases fails_bind_iff.mp he with he | ⟨_, _, -, he⟩
    · exact he
    · exact (fails_pure_iff.mp he).elim
  · rw [hmapM] at hnamed
    obtain ⟨pair, p₁, hpair, hnamed⟩ := yields_bind_iff.mp hnamed
    obtain ⟨rfl, rfl⟩ := yields_pure_iff.mp hnamed
    refine ⟨pair, hpair, rfl, ?_⟩
    obtain ⟨id, _, -, h⟩ := yields_bind_iff.mp hpair
    obtain ⟨_, _, -, h⟩ := yields_bind_iff.mp h
    rw [(yields_pure_iff.mp h).1]

end Tracks

/-! ## Labels

A label is the type and the identifier of a block. The labels of blocks that were read are those of elements that were
named, except where a later part replaced an earlier one. -/

/-- The types and identifiers of blocks and all blocks inside them. -/
def labels (bs : List Block) : List (Option String × String) :=
  (bs.flatMap reached).map fun b => (some b.tag, b.id)

def labelsOfXml (named : List (Xml × String)) : List (Option String × String) :=
  named.map fun pair => (pair.1.attr? "type", pair.2)

theorem labels_append (bs cs : List Block) : labels (bs ++ cs) = labels bs ++ labels cs := by
  simp [labels]

theorem labelsOfXml_append (named more : List (Xml × String)) :
    labelsOfXml (named ++ more) = labelsOfXml named ++ labelsOfXml more :=
  List.map_append

theorem labels_singleton (b : Block) :
    labels [b] = (some b.tag, b.id) :: b.entries.flatMap fun entry => labels [entry.2] := by
  simp [labels, reached_entries b, List.map_flatMap]

/-- Blocks that were read have the labels of elements that were named. If the document has ascending names, so have the
dictionaries of the blocks, and no mutation is empty. -/
structure Covers (ordered : Prop) (named : List (Xml × String)) (bs : List Block) : Prop where
  labels : (labels bs).Subperm (labelsOfXml named)
  settled : ordered → ∀ b ∈ bs.flatMap reached, b.Ordered ∧ b.Solid

/-- The same for a block that took in parts. -/
structure Grows (ordered : Prop) (b : Block) (named : List (Xml × String)) (c : Block) : Prop where
  labels : (labels [c]).Subperm (labelsOfXml named ++ labels [b])
  settled : ordered → (∀ d ∈ b.reached, d.Ordered ∧ d.Solid) → ∀ d ∈ c.reached, d.Ordered ∧ d.Solid

/-- A block differs from another one by its head and by parts that are new or gone. -/
structure Alters (ordered : Prop) (b : Block) (more : List (Step × Block)) (c : Block) : Prop where
  tag : c.tag = b.tag
  id : c.id = b.id
  entries : c.entries.Subperm (more ++ b.entries)
  settled : ordered → b.Ordered ∧ b.Solid → c.Ordered ∧ c.Solid

section Covers

variable {ordered : Prop} {more : List (Xml × String)} {bs cs : List Block}

theorem covers_nil : Covers ordered [] [] :=
  ⟨List.Subperm.refl _, fun _ _ hb => absurd hb List.not_mem_nil⟩

theorem Covers.append (h : Covers ordered named bs) (h' : Covers ordered more cs) :
    Covers ordered (named ++ more) (bs ++ cs) := by
  refine ⟨?_, fun ho => ?_⟩
  · rw [labels_append, labelsOfXml_append]
    exact h.labels.append h'.labels
  · rw [List.flatMap_append]
    exact List.forall_mem_append.mpr ⟨h.settled ho, h'.settled ho⟩

theorem Grows.covers (h : Grows ordered b more c) (hb : Covers ordered named [b]) :
    Covers ordered (named ++ more) [c] := by
  refine ⟨?_, fun ho => ?_⟩
  · rw [labelsOfXml_append]
    refine h.labels.trans (((List.subperm_append_left _).mpr hb.labels).trans (List.Perm.subperm ?_))
    exact List.perm_append_comm
  · have hsettled := hb.settled ho
    rw [List.flatMap_singleton] at hsettled ⊢
    exact h.settled ho hsettled

theorem Grows.trans {d : Block} (h : Grows ordered b named c) (h' : Grows ordered c more d) :
    Grows ordered b (named ++ more) d := by
  refine ⟨?_, fun ho hb => h'.settled ho (h.settled ho hb)⟩
  have hall := h'.labels.trans ((List.subperm_append_left _).mpr h.labels)
  refine hall.trans (List.Perm.subperm ?_)
  rw [labelsOfXml_append, ← List.append_assoc]
  exact List.perm_append_comm.append_right _

theorem Alters.grows {parts : List (Step × Block)} (h : Alters ordered b parts c)
    (hparts : Covers ordered named (parts.map Prod.snd)) : Grows ordered b named c := by
  refine ⟨?_, fun ho hb => ?_⟩
  · obtain ⟨kept, hperm, hsublist⟩ := h.entries
    have hflat : (parts ++ b.entries).flatMap (fun entry => labels [entry.2]) =
        labels (parts.map Prod.snd) ++ b.entries.flatMap fun entry => labels [entry.2] := by
      simp [labels, List.flatMap_map, List.map_flatMap]
    have hentries := (hperm.symm.flatMap_right fun entry => labels [entry.2]).subperm.trans
      (hsublist.flatMap fun entry => labels [entry.2]).subperm
    rw [hflat] at hentries
    rw [labels_singleton c, labels_singleton b, h.tag, h.id]
    refine ((List.subperm_cons _).mpr (hentries.trans ((List.subperm_append_right _).mpr hparts.labels))).trans ?_
    exact List.perm_middle.symm.subperm
  · rw [reached_entries]
    refine forall_mem_cons.mpr ⟨h.settled ho (hb b (mem_reached_self b)), fun d hd => ?_⟩
    obtain ⟨entry, hentry, hd⟩ := List.mem_flatMap.mp hd
    rcases List.mem_append.mp (h.entries.subset hentry) with hentry | hentry
    · exact hparts.settled ho d (List.mem_flatMap.mpr ⟨entry.2, List.mem_map_of_mem hentry, hd⟩)
    · exact hb d (reached_entry hentry hd)

theorem subperm_insert {α : Type} (key : String) (value : α) (d : Dict α) :
    (Dict.insert key value d).Subperm ((key, value) :: d) := by
  induction d with
  | nil => exact List.Subperm.refl _
  | cons pair rest ih =>
    obtain ⟨k, v⟩ := pair
    rw [Dict.insert]
    split
    · exact ((List.sublist_cons_self _ _).cons_cons _).subperm
    · split
      · exact List.Subperm.refl _
      · exact ((List.subperm_cons (k, v)).mpr ih).trans (List.Perm.swap _ _ _).subperm

theorem alters_refl (b : Block) : Alters ordered b [] b :=
  ⟨rfl, rfl, List.Subperm.refl _, fun _ h => h⟩

theorem alters_put (b : Block) (s : Step) (c : Block) : Alters ordered b [(s, c)] (b.put s c) := by
  cases s with
  | value slot =>
    refine ⟨rfl, rfl, ?_, fun _ h =>
      ⟨⟨h.1.fields, Dict.sorted_insert slot c _ h.1.values, h.1.statements, h.1.mutation⟩, h.2⟩⟩
    have hslots := (subperm_insert slot c b.values).map (f := fun slot => (Step.value slot.1, slot.2))
      (fun x y h => by simpa [Prod.ext_iff] using h)
    exact (hslots.append (List.Subperm.refl _)).append (List.Subperm.refl _)
  | statement slot =>
    refine ⟨rfl, rfl, ?_, fun _ h =>
      ⟨⟨h.1.fields, h.1.values, Dict.sorted_insert slot c _ h.1.statements, h.1.mutation⟩, h.2⟩⟩
    have hslots := (subperm_insert slot c b.statements).map (f := fun slot => (Step.statement slot.1, slot.2))
      (fun x y h => by simpa [Prod.ext_iff] using h)
    refine (((List.Subperm.refl _).append hslots).append (List.Subperm.refl _)).trans (List.Perm.subperm ?_)
    exact List.perm_middle.append_right _
  | next =>
    refine ⟨rfl, rfl, ?_, fun _ h => ⟨⟨h.1.fields, h.1.values, h.1.statements, h.1.mutation⟩, h.2⟩⟩
    have hperm := List.perm_append_singleton (Step.next, c) ((b.values.map fun slot => (Step.value slot.1, slot.2)) ++
      b.statements.map fun slot => (Step.statement slot.1, slot.2))
    exact hperm.subperm.trans ((List.sublist_append_left _ _).cons_cons _).subperm

theorem alters_mutation {attributes : Dict String} (h : ordered → Dict.Sorted attributes) :
    Alters ordered b [] (b.withXmlMutation attributes) := by
  unfold withXmlMutation
  split
  · exact alters_refl b
  · next hne =>
    refine ⟨rfl, rfl, List.Subperm.refl _, fun ho hb =>
      ⟨⟨hb.1.fields, hb.1.values, hb.1.statements, h ho⟩, fun hempty => ?_⟩⟩
    cases hempty
    exact hne rfl

theorem alters_placedAt (at? : Option Position) (b : Block) : Alters ordered b [] (placedAt at? b) := by
  unfold placedAt
  split
  · exact alters_refl b
  · exact ⟨rfl, rfl, List.Subperm.refl _, fun _ h => ⟨⟨h.1.fields, h.1.values, h.1.statements, h.1.mutation⟩, h.2⟩⟩

end Covers

/-! ## Reading names the elements of its route -/

theorem readBlock_eq (name : String) (attributes : List (String × String)) (children : List Xml) :
    readBlock (.element name attributes children) =
      nameXml (.element name attributes children) >>= fun pair =>
        match Xml.attr? (.element name attributes children) "type" with
        | none => throw (.malformed pair.2 .noTag)
        | some tag => readParts { tag, attrs := attributesOfXml (.element name attributes children) pair.2 } children := by
  rw [readBlock, nameXml, bind_assoc]
  refine bind_congr fun id => ?_
  rw [bind_assoc]
  refine bind_congr fun _ => ?_
  exact (pure_bind _ _).symm

section Parts

variable {ordered : Prop} {b : Block} {parts rest : List Xml}

theorem tracks_readParts_rest {c : Block} {named : List (Xml × String)}
    (hrest : ∀ b, Tracks (readParts b rest) (routeOfParts rest) (Grows ordered b)) (hc : Grows ordered b named c) :
    Tracks (pure c >>= fun b => readParts b rest) (routeOfParts rest) fun more d => Grows ordered b (named ++ more) d := by
  rw [pure_bind]
  exact (hrest c).mono fun more d hd => hc.trans hd

theorem tracks_readParts_same {c : Block} (hrest : ∀ b, Tracks (readParts b rest) (routeOfParts rest) (Grows ordered b))
    (hc : Alters ordered b [] c) :
    Tracks (pure c >>= fun b => readParts b rest) (routeOfParts rest) (Grows ordered b) :=
  tracks_readParts_rest hrest (hc.grows covers_nil)

theorem tracks_readParts_slot {fill : Option Block → XmlReading Block} {into : Option Block → Block}
    (hfirst : Tracks (readFirst (fillerKind parts) parts) (routeOfFirst (fillerKind parts) parts)
      fun named child => Covers ordered named child.toList)
    (hrest : ∀ b, Tracks (readParts b rest) (routeOfParts rest) (Grows ordered b))
    (hfill : ∀ child, fill child = pure (into child) >>= fun b => readParts b rest)
    (hinto : ∀ named child, Covers ordered named child.toList → Grows ordered b named (into child)) :
    Tracks (readFirst (fillerKind parts) parts >>= fill)
      ((routeOfFirst (fillerKind parts) parts).andThen (routeOfParts rest)) (Grows ordered b) := by
  refine hfirst.bind fun named child hchild => ?_
  rw [hfill child]
  exact tracks_readParts_rest hrest (hinto named child hchild)

theorem tracks_readParts_unnamed (kind : String) :
    Tracks (throw (.malformed b.id (.unnamedInput kind)) >>= fun b => readParts b rest)
      (Route.stop.andThen (routeOfParts rest)) (Grows ordered b) :=
  Tracks.bind (P := fun _ _ => False) (tracks_throw nofun) fun _ _ h => h.elim

theorem grows_slot (s : Step) (named : List (Xml × String)) (child : Option Block)
    (h : Covers ordered named child.toList) : Grows ordered b named (child.elim b (b.put s)) := by
  cases child with
  | none => exact (alters_refl b).grows h
  | some child => exact (alters_put b s child).grows h

theorem grows_next (named : List (Xml × String)) (child : Option Block) (h : Covers ordered named child.toList) :
    Grows ordered b named { b with next := child } := by
  cases child with
  | none =>
    have halters : Alters ordered b [] { b with next := none } :=
      ⟨rfl, rfl, ((List.Sublist.refl _).append (List.nil_sublist _)).subperm,
        fun _ h => ⟨⟨h.1.fields, h.1.values, h.1.statements, h.1.mutation⟩, h.2⟩⟩
    exact halters.grows h
  | some child => exact (alters_put b .next child).grows h

theorem tracks_readParts_cons {kind : String} {attributes : List (String × String)}
    (hattributes : ordered → Dict.Sorted attributes)
    (hfirst : Tracks (readFirst (fillerKind parts) parts) (routeOfFirst (fillerKind parts) parts)
      fun named child => Covers ordered named child.toList)
    (hrest : ∀ b, Tracks (readParts b rest) (routeOfParts rest) (Grows ordered b)) :
    Tracks (readParts b (.element kind attributes parts :: rest)) (routeOfParts (.element kind attributes parts :: rest))
      (Grows ordered b) := by
  unfold readParts routeOfParts Route.ofPart
  simp only
  split
  case h_1 => exact tracks_readParts_same hrest (alters_mutation hattributes)
  case h_2 name hname =>
    simp only [hname, Option.isSome_some, String.reduceEq, reduceIte, or_self, or_true, decide_true]
    exact tracks_readParts_same hrest ⟨rfl, rfl, List.Subperm.refl _, fun _ h =>
      ⟨⟨Dict.sorted_insert _ _ _ h.1.fields, h.1.values, h.1.statements, h.1.mutation⟩, h.2⟩⟩
  case h_3 name hname =>
    simp only [hname, Option.isSome_some, String.reduceEq, reduceIte, or_false]
    refine tracks_readParts_slot hfirst hrest (fun child => ?_) (grows_slot (.value name))
    cases child <;> rfl
  case h_4 name hname =>
    simp only [hname, Option.isSome_some, String.reduceEq, reduceIte, false_or]
    refine tracks_readParts_slot hfirst hrest (fun child => ?_) (grows_slot (.statement name))
    cases child <;> rfl
  case h_5 => exact tracks_readParts_slot hfirst hrest (fun child => rfl) grows_next
  case h_6 =>
    exact tracks_readParts_same hrest ⟨rfl, rfl, List.Subperm.refl _, fun _ h =>
      ⟨⟨h.1.fields, h.1.values, h.1.statements, h.1.mutation⟩, h.2⟩⟩
  case h_7 hname =>
    simp only [hname, Option.isSome_none, String.reduceEq, reduceIte, or_self]
    exact tracks_readParts_unnamed "field"
  case h_8 hname =>
    simp only [hname, Option.isSome_none, String.reduceEq, reduceIte, or_false]
    exact tracks_readParts_unnamed "value"
  case h_9 hname =>
    simp only [hname, Option.isSome_none, String.reduceEq, reduceIte, false_or]
    exact tracks_readParts_unnamed "statement"
  case h_10 kind _ _ _ hnext _ hfield hvalue hstatement hfield' hvalue' hstatement' =>
    have hother : ∀ {word}, (∀ name, kind = word → Dict.get? "name" attributes = some name → False) →
        (kind = word → Dict.get? "name" attributes = none → False) → kind ≠ word := by
      intro word hsome hnone hkind
      cases hname : Dict.get? "name" attributes with
      | none => exact hnone hkind hname
      | some name => exact hsome name hkind hname
    have hvalue := hother hvalue hvalue'
    have hstatement := hother hstatement hstatement'
    have hfield := hother hfield hfield'
    rw [if_neg hnext, if_neg (by simp [hvalue, hstatement])]
    simp only [hfield, ne_eq, not_false_eq_true, true_or, decide_true]
    exact tracks_readParts_same hrest (alters_refl b)

end Parts

section Reading

variable {ordered : Prop}

mutual

theorem tracks_readBlock (x : Xml) (hx : ordered → x.Ordered) :
    Tracks (readBlock x) (route x) fun named b => Covers ordered named [b] := by
  match x, hx with
  | .text chars, _ =>
    rw [readBlock, route]
    exact tracks_throw nofun
  | .element name attributes children, hx =>
    rw [readBlock_eq, route]
    cases htype : Xml.attr? (.element name attributes children) "type" with
    | none => exact (tracks_nameXml _).bind (s := .stop) fun _ pair _ => tracks_throw nofun
    | some tag =>
      refine (tracks_nameXml _).bind fun named pair hpair =>
        (tracks_readParts children (fun ho => (hx ho).children) _).mono fun more b hb => hb.covers ?_
      obtain ⟨rfl, hx⟩ := hpair
      refine ⟨?_, fun _ => List.forall_mem_singleton.mpr ⟨⟨?_, ?_, ?_, ?_⟩, nofun⟩⟩
      · rw [labels_singleton, labelsOfXml, List.map_singleton, hx, htype]
        exact List.Subperm.refl _
      all_goals exact List.Pairwise.nil
termination_by structural x

theorem tracks_readFirst (kind : String) (xs : List Xml) (hxs : ordered → ∀ x ∈ xs, x.Ordered) :
    Tracks (readFirst kind xs) (routeOfFirst kind xs) fun named child => Covers ordered named child.toList := by
  match xs, hxs with
  | [], _ =>
    rw [readFirst, routeOfFirst]
    exact tracks_pure covers_nil
  | x :: rest, hxs =>
    rw [readFirst, routeOfFirst]
    split
    · exact (tracks_readBlock x fun ho => hxs ho x mem_cons_self).map fun named b hb => hb
    · exact tracks_readFirst kind rest fun ho => (forall_mem_cons.mp (hxs ho)).2
termination_by structural xs

theorem tracks_readParts (xs : List Xml) (hxs : ordered → ∀ x ∈ xs, x.Ordered) (b : Block) :
    Tracks (readParts b xs) (routeOfParts xs) (Grows ordered b) := by
  match xs, hxs with
  | [], _ =>
    rw [readParts, routeOfParts]
    exact tracks_pure ((alters_refl b).grows covers_nil)
  | .text chars :: rest, hxs =>
    rw [readParts, routeOfParts]
    exact tracks_readParts rest (fun ho => (forall_mem_cons.mp (hxs ho)).2) b
  | .element kind attributes parts :: rest, hxs =>
    have hx : ordered → Xml.Ordered (.element kind attributes parts) := fun ho => hxs ho _ mem_cons_self
    exact tracks_readParts_cons (fun ho => (hx ho).attributes) (tracks_readFirst _ parts fun ho => (hx ho).children)
      (tracks_readParts rest fun ho => (forall_mem_cons.mp (hxs ho)).2)
termination_by structural xs

end

theorem tracks_readInstance (at? : Option Position) (xs : List Xml) (hxs : ordered → ∀ x ∈ xs, x.Ordered) :
    Tracks (readInstance at? xs) (routeOfInstance xs) (Covers ordered) := by
  induction xs with
  | nil => exact tracks_pure covers_nil
  | cons x rest ih =>
    have hrest := ih fun ho => (forall_mem_cons.mp (hxs ho)).2
    rw [readInstance, routeOfInstance]
    split
    · refine (tracks_readBlock x fun ho => hxs ho x mem_cons_self).bind fun named b hb =>
        hrest.map fun more others hothers => ?_
      have hplaced : Covers ordered (named ++ []) [placedAt at? b] :=
        ((alters_placedAt at? b).grows covers_nil).covers hb
      rw [List.append_nil] at hplaced
      exact hplaced.append hothers
    · exact hrest

mutual

theorem tracks_readNode (x : Xml) (hx : ordered → x.Ordered) :
    Tracks (readNode x) (routeOfNode x) (Covers ordered) := by
  match x, hx with
  | .text chars, _ =>
    rw [readNode, routeOfNode]
    exact tracks_pure covers_nil
  | .element name attributes children, hx =>
    rw [readNode, routeOfNode]
    split
    · exact (tracks_readBlock _ hx).map fun named b hb => hb
    split
    · exact tracks_readInstance _ children fun ho => (hx ho).children
    split
    · exact tracks_readWorkspace children fun ho => (hx ho).children
    · exact tracks_pure covers_nil
termination_by structural x

theorem tracks_readWorkspace (xs : List Xml) (hxs : ordered → ∀ x ∈ xs, x.Ordered) :
    Tracks (readWorkspace xs) (routeOfWorkspace xs) (Covers ordered) := by
  match xs, hxs with
  | [], _ =>
    rw [readWorkspace, routeOfWorkspace]
    exact tracks_pure covers_nil
  | x :: rest, hxs =>
    rw [readWorkspace, routeOfWorkspace]
    exact (tracks_readNode x fun ho => hxs ho x mem_cons_self).bind fun named bs hbs =>
      (tracks_readWorkspace rest fun ho => (forall_mem_cons.mp (hxs ho)).2).map fun more others hothers =>
        hbs.append hothers
termination_by structural xs

end

end Reading

/-! ## Whole documents -/

/-- The identifiers of the elements that are read in a document: all are different, and each element has its own or one
that the document does not write anywhere. -/
structure Identified (root : Xml) (named : List (Xml × String)) : Prop where
  elements : named.map Prod.fst = (routeOfWorkspace root.children).elements
  distinct : (named.map Prod.snd).Nodup
  suits : ∀ pair ∈ named, Suits (explicitXmlIds root) pair

def XmlProgress.start (root : Xml) : XmlProgress :=
  { taken := explicitXmlIds root, seen := [], count := 0 }

theorem naming_start (root : Xml) : Naming (explicitXmlIds root) [] (XmlProgress.start root) :=
  ⟨List.Subset.refl _, List.nil_subset _, nofun, List.nodup_nil⟩

theorem registered_elements (root : Xml) :
    ∀ x ∈ (routeOfWorkspace root.children).elements, Registered (explicitXmlIds root) x :=
  fun x hx => (registered_routeOfWorkspace root.children x hx).mono (explicitXmlIds_children root)

section Documents

variable {root : Xml} {named : List (Xml × String)} {p : XmlProgress} {bs : List Block} {e : Error}

theorem identified_of_yields
    (h : Yields ((routeOfWorkspace root.children).elements.mapM nameXml) (.start root) named p) :
    Identified root named := by
  obtain ⟨helements, hsuits, hseen, hp⟩ := (naming_start root).of_yields_mapM (registered_elements root) h
  refine ⟨helements, ?_, hsuits⟩
  have hnodup := hp.nodup
  rw [hseen, XmlProgress.start, List.append_nil, List.nodup_reverse] at hnodup
  exact hnodup

theorem Identified.nodup_own (h : Identified root named) :
    (ownXmlIds (routeOfWorkspace root.children).elements).Nodup := by
  rw [← h.elements]
  exact h.distinct.sublist (sublist_ownXmlIds h.suits)

theorem Identified.nodup_ids (h : Identified root named) (hbs : (labels bs).Subperm (labelsOfXml named)) :
    (bs.flatMap ids).Nodup := by
  obtain ⟨kept, hperm, hsublist⟩ := hbs
  have hids : (labels bs).map Prod.snd = bs.flatMap ids := by
    rw [labels, List.map_map, List.map_flatMap]
    rfl
  have hnames : (labelsOfXml named).map Prod.snd = named.map Prod.snd := by
    simp [labelsOfXml]
  have hkept : (kept.map Prod.snd).Nodup := by
    refine List.Nodup.sublist (hsublist.map Prod.snd) ?_
    rw [hnames]
    exact h.distinct
  rw [← hids]
  exact (hperm.map Prod.snd).nodup_iff.mp hkept

theorem ofXml_ok_iff (hroot : (root.isNamed "xml" || root.isNamed "block_set") = true) :
    ofXml root = .ok bs ↔ ∃ p, Yields (readWorkspace root.children) (.start root) bs p := by
  rw [ofXml, if_pos hroot, StateT.run'_eq]
  unfold Yields XmlProgress.start
  cases (readWorkspace root.children).run ⟨explicitXmlIds root, [], 0⟩ with
  | error e => simp [Functor.map, Except.map]
  | ok result => simp [Functor.map, Except.map, Prod.ext_iff]

theorem ofXml_error_iff (hroot : (root.isNamed "xml" || root.isNamed "block_set") = true) :
    ofXml root = .error e ↔ Fails (readWorkspace root.children) (.start root) e := by
  rw [ofXml, if_pos hroot, StateT.run'_eq]
  unfold Fails XmlProgress.start
  cases (readWorkspace root.children).run ⟨explicitXmlIds root, [], 0⟩ with
  | error e => simp [Functor.map, Except.map]
  | ok result => simp [Functor.map, Except.map]

theorem identified_of_ofXml {ordered : Prop} (hroot : (root.isNamed "xml" || root.isNamed "block_set") = true)
    (hordered : ordered → root.Ordered) (h : ofXml root = .ok bs) :
    ∃ named, Identified root named ∧ Covers ordered named bs := by
  obtain ⟨p, hrun⟩ := (ofXml_ok_iff hroot).mp h
  have htracks := tracks_readWorkspace root.children fun ho => (hordered ho).children
  rcases yields_or_fails ((routeOfWorkspace root.children).elements.mapM nameXml) (.start root) with
    ⟨named, p', hnamed⟩ | ⟨e, hfails⟩
  · cases hwhole : (routeOfWorkspace root.children).whole with
    | true =>
      obtain ⟨bs', hrun', hcovers⟩ := htracks.whole hwhole hnamed
      cases hrun.symm.trans hrun'
      exact ⟨named, identified_of_yields hnamed, hcovers⟩
    | false =>
      obtain ⟨id, reason, hfails, -⟩ := htracks.stopped hwhole hnamed
      exact (hrun.not_fails hfails).elim
  · exact (hrun.not_fails (htracks.repeated hfails)).elim

end Documents

end Block

end Blockwork
