import Mathlib
import Blockwork.Proofs.RulesSound

/-! # Growth of what is known

Blocks are read one after the other, each from what is known after the one before it. A reading that
fails leaves what it had learnt by then.
-/

namespace Blockwork

set_option autoImplicit false

/-- A reading that can be asked for: of a block, of a chain of blocks, or of what is in a slot of a block. -/
inductive Task where
  | statement (b : Block)
  | expression (b : Block)
  | chain (b : Block)
  | value (b : Block) (slot : String) (expected : Ty)
  | statements (b : Block) (slot : String)

namespace Task

def block : Task → Block
  | statement b | expression b | chain b | value b _ _ | statements b _ => b

/-- What is known after a reading, whether it succeeds or fails. -/
def after (env : TypeEnv) : Task → TypeEnv
  | statement b => (b.readStmt.runFrom env).2
  | expression b => (b.readExpr.runFrom env).2
  | chain b => (b.readChain.runFrom env).2
  | value b slot expected => ((b.readValue slot expected).runFrom env).2
  | statements b slot => ((b.readStatements slot).runFrom env).2

/-- What is known after a sequence of readings. -/
def afterAll (env : TypeEnv) (tasks : List Task) : TypeEnv :=
  tasks.foldl after env

theorem afterAll_append (env : TypeEnv) (tasks rest : List Task) :
    afterAll env (tasks ++ rest) = afterAll (afterAll env tasks) rest :=
  List.foldl_append

theorem growsTo_of_sound {α : Type} {ids : List String} {r : Reading α} {env : TypeEnv}
    {Q : α → TypeEnv → Prop} (h : Reading.Sound ids r env Q) : env.GrowsTo ids (r.runFrom env).2 :=
  (h _ _ rfl).1

theorem growsTo_after (env : TypeEnv) (task : Task) : env.GrowsTo task.block.ids (task.after env) := by
  cases task with
  | statement b => exact growsTo_of_sound (Block.sound_readStmt b env)
  | expression b => exact growsTo_of_sound (Block.sound_asExpr (Block.sound_read b env))
  | chain b =>
    have hchain : ∀ c ∈ b.chain, ∀ env, Reading.Sound b.ids c.readStmt env fun s env' =>
        s.ComesFrom c ∧ env'.Knows s.vars := by
      intro c hc env
      exact (Block.sound_readStmt c env).mono (Block.ids_subset (Block.reached_of_mem_chain hc))
    exact growsTo_of_sound (Block.sound_stmts (fun c => c) hchain)
  | value b slot expected =>
    exact growsTo_of_sound (Block.sound_valueIn (fun child _ env => Block.sound_read child env) slot expected)
  | statements b slot =>
    exact growsTo_of_sound (Block.sound_statementsIn (fun child _ env => Block.sound_read child env) slot)

theorem growsTo_afterAll (env : TypeEnv) (tasks : List Task) :
    env.GrowsTo (tasks.flatMap fun task => task.block.ids) (afterAll env tasks) := by
  induction tasks generalizing env with
  | nil => exact .refl _ env
  | cons task tasks ih =>
    rw [List.flatMap_cons]
    have hfirst := (growsTo_after env task).mono
      (List.subset_append_left task.block.ids (tasks.flatMap fun task => task.block.ids))
    have hrest := (ih (task.after env)).mono
      (List.subset_append_right task.block.ids (tasks.flatMap fun task => task.block.ids))
    exact hfirst.trans hrest

end Task

namespace TypeEnv

/-- Readings, also those that fail, refine the types of variables and add links after those that are
there; a variable with a type without placeholders keeps this type. -/
theorem reading_only_adds (env : TypeEnv) :
    (∀ task : Task, (∀ name, ((task.after env).lookup name).Refines (env.lookup name)) ∧
      env.aliases <+: (task.after env).aliases ∧ env.elements <+: (task.after env).elements) ∧
    ∀ (before rest : List Task) (name : String),
      ((Task.afterAll env before).lookup name).isConcrete = true →
        (Task.afterAll env (before ++ rest)).lookup name = (Task.afterAll env before).lookup name := by
  constructor
  · intro task
    obtain ⟨hwithin, ⟨aliases, haliases, -⟩, ⟨elements, helements, -⟩⟩ := Task.growsTo_after env task
    exact ⟨hwithin, ⟨aliases, haliases.symm⟩, ⟨elements, helements.symm⟩⟩
  · intro before rest name hconcrete
    rw [Task.afterAll_append]
    have hgrow := Task.growsTo_afterAll (Task.afterAll env before) rest
    exact (hgrow.within name).eq_of_isConcrete hconcrete

/-- A loop that counts with `x` and has no bounds. -/
def boundlessLoop : Block :=
  { tag := Tag.count.name, attrs := { id := "a" }, fields := [("VAR", "x")] }

/-- A step that sets `x` to a truth value. -/
def truthStep : Block :=
  { tag := Tag.assign.name, attrs := { id := "b" }, fields := [("VAR", "x")],
    values := [("VALUE", { tag := Tag.boolean.name, attrs := { id := "c" }, fields := [("BOOL", "TRUE")] })] }

/-- The loop is refused after `x` has become a number, the step is refused because of that, and `x` stays
a number. -/
theorem counter_of_refused_loop_stays_number :
    (boundlessLoop.readStmt.runFrom {}).1 = .error (.missingSlot "FROM" "a") ∧
    (truthStep.readChain.runFrom (Task.after {} (.statement boundlessLoop))).1 =
      .error (.mismatch .number .boolean "b") ∧
    (Task.afterAll {} ([.statement boundlessLoop] ++ [.chain truthStep])).lookup "x" = .number := by
  have hbound : (Task.afterAll {} [.statement boundlessLoop]).lookup "x" = .number := by cbv
  have hconcrete : ((Task.afterAll {} [.statement boundlessLoop]).lookup "x").isConcrete = true := by
    rw [hbound]
    rfl
  refine ⟨by cbv, by cbv, ?_⟩
  rw [(reading_only_adds {}).2 [.statement boundlessLoop] [.chain truthStep] "x" hconcrete, hbound]

end TypeEnv

end Blockwork
