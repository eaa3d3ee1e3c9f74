import Mathlib
import Blockwork.Proofs.Refusals
import Blockwork.Proofs.Settling

/-! # Workspaces that are accepted or refused

* `Program.ofBlocks_error_names_block` says that a refusal names a block of the workspace.
* `Program.ofBlocks_types_agree` says that in an accepted program every variable has one type without
  placeholders, wherever it occurs.
-/

namespace Blockwork

set_option autoImplicit false

namespace Program

variable {blocks : List Block} {allowFloating : Bool}

/-- The steps by which a workspace was accepted. -/
structure Accepted (blocks : List Block) (allowFloating : Bool) (p : Program) (roots : List Root)
    (env settled : TypeEnv) : Prop where
  read : (Block.readRoots allowFloating blocks).Yields {} roots env
  settle : env.settle = .ok settled
  resolve : List.Forall₂ (fun root q => root.resolve settled = .ok q) roots p.roots

theorem exists_accepted {p : Program} (h : ofBlocks blocks allowFloating = .ok p) :
    ∃ roots env settled, Accepted blocks allowFloating p roots env settled := by
  unfold ofBlocks readFrom at h
  split at h
  · next roots env hread =>
    unfold Program.resolve at h
    obtain ⟨settled, hsettle, h⟩ := Except.bind_ok_iff.mp h
    obtain ⟨roots', hroots, h⟩ := Except.bind_ok_iff.mp h
    cases h
    exact ⟨roots, env, settled, hread, hsettle, Except.mapM_ok_iff.mp hroots⟩
  · cases h

theorem ofBlocks_of_accepted {p : Program} {roots : List Root} {env settled : TypeEnv}
    (h : Accepted blocks allowFloating p roots env settled) : ofBlocks blocks allowFloating = .ok p := by
  unfold ofBlocks readFrom
  rw [h.read]
  dsimp only
  unfold Program.resolve
  rw [h.settle, Except.ok_bind, Except.mapM_ok_iff.mpr h.resolve, Except.ok_bind]
  rfl

variable {p : Program} {roots : List Root} {env settled : TypeEnv}

theorem Accepted.roots_from (h : Accepted blocks allowFloating p roots env settled) :
    List.Forall₂ (fun root b => root.ComesFrom b ∧ env.Knows root.vars) roots blocks := by
  have hsound := (Block.sound_readRoots allowFloating blocks {} _ _ h.read).2
  exact hsound

theorem Accepted.resolved (h : Accepted blocks allowFloating p roots env settled) :
    List.Forall₂ (fun q b => q.ComesFrom b ∧ q.WellTyped ∧
      ∀ v ∈ q.vars, v.type = settled.lookup v.name ∧ v.type.isConcrete = true) p.roots blocks := by
  have hwithin : env.Within settled.lookup := (TypeEnv.settle_ok h.settle).within
  refine forall₂_of_common (fun root b q hroot hq => ?_) h.roots_from h.resolve
  have houtcome := Root.outcome_of_resolve hq
  refine ⟨(Root.sound_resolve hroot.1 settled).ok hq, houtcome.wellTyped, fun v' hv' => ?_⟩
  obtain ⟨v, hv, hvv'⟩ := exists_of_mem_right houtcome.vars hv'
  exact hvv'.type_eq (hroot.2.mono hwithin v hv)

/-! ## Refusals -/

theorem sound_settle {ids : List String} (h : TypeEnv.GrowsTo ids {} env) :
    Except.Sound ids env.settle fun _ => True := by
  cases hsettle : env.settle with
  | ok settled => exact Except.sound_ok trivial
  | error e =>
    obtain ⟨id, he, hlink⟩ := TypeEnv.settle_error hsettle
    refine Except.sound_error ⟨id, ?_, ?_⟩
    · rcases hlink with ⟨link, hl, rfl⟩ | ⟨link, hl, rfl⟩
      · exact h.blockId_mem_alias hl
      · exact h.blockId_mem_element hl
    · rcases he with ⟨a, b, rfl⟩ | rfl <;> rfl

theorem sound_resolveRoots {roots : List Root}
    (h : List.Forall₂ (fun (root : Root) b => root.ComesFrom b) roots blocks) (env : TypeEnv) :
    Except.Sound (Block.allIds blocks) (roots.mapM (Root.resolve env)) fun _ => True := by
  cases hroots : roots.mapM (Root.resolve env) with
  | ok roots' => exact Except.sound_ok trivial
  | error e =>
    obtain ⟨root, hroot, he⟩ := Except.mapM_error hroots
    obtain ⟨b, hb, hfrom⟩ := exists_of_mem_left h hroot
    exact Except.sound_error (((Root.sound_resolve hfrom env).error he).mono (Block.ids_subset_allIds hb))

theorem sound_ofBlocks (blocks : List Block) (allowFloating : Bool) :
    Except.Sound (Block.allIds blocks) (ofBlocks blocks allowFloating) fun _ => True := by
  unfold ofBlocks readFrom
  have hread := Block.sound_readRoots allowFloating blocks {}
  split
  · next roots env hrun =>
    obtain ⟨hgrow, hroots⟩ := hread _ _ hrun
    unfold Program.resolve
    refine (sound_settle hgrow).bind fun settled _ _ => ?_
    refine (sound_resolveRoots ((hroots.ok rfl).imp fun _ _ => And.left) settled).bind fun _ _ _ => ?_
    exact Except.sound_ok trivial
  · next e env hrun => exact (hread _ _ hrun).2

/-- A workspace is refused for a fault of one of its blocks: a node is never refused, neither while blocks
are read nor while types are filled in, and whatever is known about variables then. -/
theorem ofBlocks_error_names_block (blocks : List Block) (allowFloating : Bool) :
    (∀ e, ofBlocks blocks allowFloating = .error e →
      (∀ d, e ≠ .defect d) ∧ (∀ format fault, e ≠ .document format fault) ∧
        ∃ b ∈ blocks, ∃ c ∈ b.reached, e.blockId? = some c.id) ∧
    (∀ env env' d, (Block.readRoots allowFloating blocks).runFrom env ≠ (.error (.defect d), env')) ∧
    (∀ env env' roots, (Block.readRoots allowFloating blocks).runFrom env = (.ok roots, env') →
      ∀ env'' d, ∀ root ∈ roots, root.resolve env'' ≠ .error (.defect d)) := by
  refine ⟨fun e h => ?_, fun env env' d h => ?_, fun env env' roots h env'' d root hroot hd => ?_⟩
  · obtain ⟨id, hid, he⟩ := (sound_ofBlocks blocks allowFloating).error h
    refine ⟨?_, ?_, ?_⟩
    · rintro d rfl
      cases he
    · rintro format fault rfl
      cases he
    · obtain ⟨b, hb, hid⟩ := List.mem_flatMap.mp hid
      obtain ⟨c, hc, rfl⟩ := List.mem_map.mp hid
      exact ⟨b, hb, c, hc, he⟩
  · obtain ⟨id, -, hd⟩ := (Block.sound_readRoots allowFloating blocks env _ _ h).2
    cases hd
  · have hfrom := (Block.sound_readRoots allowFloating blocks env _ _ h).2.ok rfl
    obtain ⟨b, -, hb⟩ := exists_of_mem_left hfrom hroot
    obtain ⟨id, -, hd⟩ := (Root.sound_resolve hb.1 env'').error hd
    cases hd

theorem exists_of_any (blocks : List Block) (allowFloating : Bool) (P : Program → Prop) [DecidablePred P]
    (h : ((ofBlocks blocks allowFloating).toOption.any fun p => decide (P p)) = true) :
    ∃ p, ofBlocks blocks allowFloating = .ok p ∧ P p := by
  cases hp : ofBlocks blocks allowFloating with
  | error defect =>
    rw [hp] at h
    cases h
  | ok p =>
    rw [hp] at h
    exact ⟨p, rfl, of_decide_eq_true h⟩

def readingBlock (id name : String) : Block :=
  { tag := Tag.var.name, attrs := { id }, fields := [("VAR", name)] }

def settingBlock (id name : String) (value : Block) : Block :=
  { tag := Tag.assign.name, attrs := { id }, fields := [("VAR", name)], values := [("VALUE", value)] }

def truthBlock (id : String) : Block :=
  { tag := Tag.boolean.name, attrs := { id }, fields := [("BOOL", "TRUE")] }

/-- Two variables that have to agree, and that are set to a text and to a truth value later. -/
def clashing : List Block :=
  [settingBlock "a" "x" (readingBlock "b" "y"), settingBlock "c" "x" (truthBlock "d"),
   settingBlock "e" "y" { tag := Tag.text.name, attrs := { id := "f" }, fields := [("TEXT", "on")] }]

theorem clashing_names_block :
    ofBlocks clashing false = .error (.mismatch .boolean .text "a") ∧
    (∃ b ∈ clashing, ∃ c ∈ b.reached, (Error.mismatch .boolean .text "a").blockId? = some c.id) ∧
    ∃ roots env, (Block.readRoots false clashing).runFrom {} = (.ok roots, env) ∧
      ∀ env' d, ∀ root ∈ roots, root.resolve env' ≠ .error (.defect d) := by
  have herror : ofBlocks clashing false = .error (.mismatch .boolean .text "a") := by cbv
  have hread : ((Block.readRoots false clashing).runFrom {}).1.isOk = true := by cbv
  obtain ⟨hnames, -, hresolve⟩ := ofBlocks_error_names_block clashing false
  refine ⟨herror, (hnames _ herror).2.2, ?_⟩
  cases hrun : (Block.readRoots false clashing).runFrom {} with
  | mk result env =>
    rw [hrun] at hread
    cases result with
    | error e => cases hread
    | ok roots => exact ⟨roots, env, rfl, hresolve {} env roots hrun⟩

/-! ## Types of accepted programs -/

/-- In an accepted program every variable and every list has a type without placeholders, and a variable
has one type wherever it occurs. -/
theorem ofBlocks_types_agree {blocks : List Block} {allowFloating : Bool} {p : Program}
    (h : ofBlocks blocks allowFloating = .ok p) :
    (∀ v ∈ p.roots.flatMap Root.vars, v.type.isConcrete = true) ∧
    (∀ element items attrs, Expr.list element items attrs ∈ p.roots.flatMap Root.exprs →
      element.isConcrete = true) ∧
    (∀ v ∈ p.roots.flatMap Root.vars, ∀ w ∈ p.roots.flatMap Root.vars,
      v.name = w.name → v.type = w.type) := by
  obtain ⟨roots, env, settled, haccepted⟩ := exists_accepted h
  have htypes : ∀ v ∈ p.roots.flatMap Root.vars, v.type = settled.lookup v.name ∧ v.type.isConcrete = true := by
    intro v hv
    obtain ⟨root, hroot, hv⟩ := List.mem_flatMap.mp hv
    obtain ⟨b, -, hresolved⟩ := exists_of_mem_left haccepted.resolved hroot
    exact hresolved.2.2 v hv
  refine ⟨fun v hv => (htypes v hv).2, fun element items attrs hlist => ?_, fun v hv w hw hname => ?_⟩
  · obtain ⟨root, hroot, hlist⟩ := List.mem_flatMap.mp hlist
    obtain ⟨b, -, hresolved⟩ := exists_of_mem_left haccepted.resolved hroot
    exact (hresolved.2.1.checks _ hlist).1
  · rw [(htypes v hv).1, (htypes w hw).1, hname]

/-- A variable that is set to another one before that one is set, and a list of the other one. -/
def linked : List Block :=
  [settingBlock "a" "x" (readingBlock "b" "y"), settingBlock "c" "y" (truthBlock "d"),
   settingBlock "e" "z"
     { tag := Tag.list.name, attrs := { id := "f" }, values := [("ADD0", readingBlock "g" "y")] }]

theorem linked_types_agree :
    ∃ p, ofBlocks linked false = .ok p ∧
      p.variables.map (fun v => (v.name, v.type)) =
        [("x", .boolean), ("y", .boolean), ("z", .list .boolean)] ∧
      ∀ v ∈ p.roots.flatMap Root.vars, ∀ w ∈ p.roots.flatMap Root.vars,
        v.name = w.name → v.type = w.type := by
  obtain ⟨p, hp, hvars⟩ := exists_of_any linked false (fun p => p.variables.map (fun v => (v.name, v.type)) =
    [("x", .boolean), ("y", .boolean), ("z", .list .boolean)]) (by decide +kernel)
  exact ⟨p, hp, hvars, (ofBlocks_types_agree hp).2.2⟩

end Program

end Blockwork
