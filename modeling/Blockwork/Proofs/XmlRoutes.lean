import Blockwork.Block.OfXml

/-! # Elements of blocks that are read

Which elements of an XML document are read as blocks depends on the document alone, not on the identifiers in it.
-/

namespace Blockwork

set_option autoImplicit false

variable {x : Xml}

/-! ## Elements that are read -/

/-- The elements of blocks that are read, in their order, and whether reading comes to its end. -/
structure Xml.Route where
  elements : List Xml
  whole : Bool

namespace Xml.Route

def empty : Route :=
  ⟨[], true⟩

def stop : Route :=
  ⟨[], false⟩

def andThen (r s : Route) : Route :=
  if r.whole then ⟨r.elements ++ s.elements, s.whole⟩ else r

/-- The route through a part of the element of a block, whose filler has a route: a slot that has no name stops
reading, and so does a field without one. -/
def ofPart (kind : String) (attributes : Dict String) (filler : Route) : Route :=
  if kind = "next" then filler
  else if kind = "value" ∨ kind = "statement" then
    if (Dict.get? "name" attributes).isSome then filler else stop
  else ⟨[], kind ≠ "field" ∨ (Dict.get? "name" attributes).isSome⟩

theorem mem_ofPart {kind : String} {attributes : Dict String} {filler : Route}
    (h : x ∈ (ofPart kind attributes filler).elements) : x ∈ filler.elements := by
  unfold ofPart at h
  split at h
  · exact h
  split at h
  · split at h
    · exact h
    · cases h
  · cases h

theorem mem_andThen {r s : Route} (h : x ∈ (r.andThen s).elements) : x ∈ r.elements ∨ x ∈ s.elements := by
  unfold andThen at h
  split at h
  · exact List.mem_append.mp h
  · exact .inl h

theorem andThen_empty (r : Route) : r.andThen empty = r := by
  obtain ⟨elements, whole⟩ := r
  cases whole <;> simp [andThen, empty]

end Xml.Route

namespace Block

open Xml (Route)

mutual

def route : Xml → Route
  | .text _ => .stop
  | .element name attributes children =>
    let x := Xml.element name attributes children
    Route.andThen ⟨[x], (x.attr? "type").isSome⟩ (routeOfParts children)
termination_by structural x => x

def routeOfFirst (kind : String) : List Xml → Route
  | [] => .empty
  | x :: rest => if x.isNamed kind then route x else routeOfFirst kind rest
termination_by structural children => children

def routeOfParts : List Xml → Route
  | [] => .empty
  | .text _ :: rest => routeOfParts rest
  | .element kind attributes parts :: rest =>
    (Route.ofPart kind attributes (routeOfFirst (fillerKind parts) parts)).andThen (routeOfParts rest)
termination_by structural children => children

end

def routeOfInstance : List Xml → Route
  | [] => .empty
  | x :: rest => if isBlock x then (route x).andThen (routeOfInstance rest) else routeOfInstance rest

mutual

def routeOfNode : Xml → Route
  | .text _ => .empty
  | .element name attributes children =>
    let x := Xml.element name attributes children
    if isBlock x then route x
    else if name = "instance" then routeOfInstance children
    else if name = "block_set" then routeOfWorkspace children
    else .empty
termination_by structural x => x

def routeOfWorkspace : List Xml → Route
  | [] => .empty
  | x :: rest => (routeOfNode x).andThen (routeOfWorkspace rest)
termination_by structural nodes => nodes

end

def ownXmlIds (xs : List Xml) : List String :=
  xs.filterMap (·.attr? "id")

theorem ownXmlIds_append (xs ys : List Xml) : ownXmlIds xs ++ ownXmlIds ys = ownXmlIds (xs ++ ys) :=
  List.filterMap_append.symm

/-! Only elements of blocks are read, so that their own identifiers are among those of the document. -/

theorem explicitXmlIds_subset_in {xs : List Xml} (h : x ∈ xs) : explicitXmlIds x ⊆ explicitXmlIdsIn xs := by
  induction xs with
  | nil => cases h
  | cons y rest ih =>
    rw [explicitXmlIdsIn]
    rcases List.mem_cons.mp h with rfl | h
    · exact List.subset_append_left _ _
    · exact List.Subset.trans (ih h) (List.subset_append_right _ _)

theorem explicitXmlIds_children (x : Xml) : explicitXmlIdsIn x.children ⊆ explicitXmlIds x := by
  cases x with
  | text chars => exact List.nil_subset _
  | element name attributes children => exact List.subset_append_right _ _

theorem isBlock_of_isNamed_fillerKind {parts : List Xml} (h : x.isNamed (fillerKind parts) = true) :
    isBlock x = true := by
  unfold fillerKind at h
  unfold isBlock
  split at h <;> simp [h]

def Registered (ids : List String) (x : Xml) : Prop :=
  ∀ id, x.attr? "id" = some id → id ∈ ids

theorem Registered.mono {ids ids' : List String} (h : Registered ids x) (hids : ids ⊆ ids') : Registered ids' x :=
  fun id hid => hids (h id hid)

theorem registered_of_isBlock (h : isBlock x = true) : Registered (explicitXmlIds x) x := by
  intro id hid
  cases x with
  | text chars => cases hid
  | element name attributes children =>
    have hname : name = "block" ∨ name = "shadow" := by simpa [isBlock, Xml.isNamed, Xml.name?] using h
    rw [explicitXmlIds, if_pos hname]
    exact List.mem_append_left _ (Option.mem_toList.mpr hid)

mutual

theorem registered_route (x : Xml) (hx : isBlock x = true) :
    ∀ y ∈ (route x).elements, Registered (explicitXmlIds x) y := by
  intro y hy
  match x with
  | .text chars => cases hy
  | .element name attributes children =>
    rw [route] at hy
    rcases Route.mem_andThen hy with hy | hy
    · cases List.mem_singleton.mp hy
      exact registered_of_isBlock hx
    · exact (registered_routeOfParts children y hy).mono (explicitXmlIds_children (.element name attributes children))
termination_by structural x

theorem registered_routeOfFirst (kind : String) (xs : List Xml) (hkind : ∀ x, x.isNamed kind = true → isBlock x = true) :
    ∀ y ∈ (routeOfFirst kind xs).elements, Registered (explicitXmlIdsIn xs) y := by
  intro y hy
  match xs with
  | [] => cases hy
  | x :: rest =>
    rw [routeOfFirst] at hy
    split at hy
    · next hx =>
      exact (registered_route x (hkind x hx) y hy).mono (explicitXmlIds_subset_in List.mem_cons_self)
    · exact (registered_routeOfFirst kind rest hkind y hy).mono (List.subset_append_right _ _)
termination_by structural xs

theorem registered_routeOfParts (xs : List Xml) :
    ∀ y ∈ (routeOfParts xs).elements, Registered (explicitXmlIdsIn xs) y := by
  intro y hy
  match xs with
  | [] => cases hy
  | .text chars :: rest =>
    rw [routeOfParts] at hy
    exact (registered_routeOfParts rest y hy).mono (List.subset_append_right _ _)
  | .element kind attributes parts :: rest =>
    rw [routeOfParts] at hy
    rcases Route.mem_andThen hy with hy | hy
    · have hkind : ∀ x, x.isNamed (fillerKind parts) = true → isBlock x = true :=
        fun x => isBlock_of_isNamed_fillerKind
      refine (registered_routeOfFirst _ parts hkind y (Route.mem_ofPart hy)).mono ?_
      exact List.Subset.trans (explicitXmlIds_children (.element kind attributes parts))
        (explicitXmlIds_subset_in List.mem_cons_self)
    · exact (registered_routeOfParts rest y hy).mono (List.subset_append_right _ _)
termination_by structural xs

end

theorem registered_routeOfInstance (xs : List Xml) :
    ∀ y ∈ (routeOfInstance xs).elements, Registered (explicitXmlIdsIn xs) y := by
  intro y hy
  induction xs with
  | nil => cases hy
  | cons x rest ih =>
    rw [routeOfInstance] at hy
    split at hy
    · next hx =>
      rcases Route.mem_andThen hy with hy | hy
      · exact (registered_route x hx y hy).mono (List.subset_append_left _ _)
      · exact (ih hy).mono (List.subset_append_right _ _)
    · exact (ih hy).mono (List.subset_append_right _ _)

mutual

theorem registered_routeOfNode (x : Xml) : ∀ y ∈ (routeOfNode x).elements, Registered (explicitXmlIds x) y := by
  intro y hy
  match x with
  | .text chars => cases hy
  | .element name attributes children =>
    have hchildren := explicitXmlIds_children (.element name attributes children)
    rw [routeOfNode] at hy
    split at hy
    · next hx => exact registered_route _ hx y hy
    split at hy
    · exact (registered_routeOfInstance children y hy).mono hchildren
    split at hy
    · exact (registered_routeOfWorkspace children y hy).mono hchildren
    · cases hy
termination_by structural x

theorem registered_routeOfWorkspace (xs : List Xml) :
    ∀ y ∈ (routeOfWorkspace xs).elements, Registered (explicitXmlIdsIn xs) y := by
  intro y hy
  match xs with
  | [] => cases hy
  | x :: rest =>
    rw [routeOfWorkspace] at hy
    rcases Route.mem_andThen hy with hy | hy
    · exact (registered_routeOfNode x y hy).mono (List.subset_append_left _ _)
    · exact (registered_routeOfWorkspace rest y hy).mono (List.subset_append_right _ _)
termination_by structural xs

end

end Block

end Blockwork
