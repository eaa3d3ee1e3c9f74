import Blockwork.Block.Basic
import Blockwork.Block.Fresh
import Blockwork.Error
import Blockwork.Json.Printer
import Blockwork.Text.Blank
import Blockwork.Text.Whole

/-! # Blocks from JSON

A document is a list of records. A slot of a record, and what comes next after it, is either a block
written in place or the identifier of another record. A record that some reference names is no root.
-/

namespace Blockwork.Block

set_option autoImplicit false

/-! ## Parts of one block -/

/-- The text of a scalar. The outer `none` is a value with parts, the inner one is null. -/
def scalarText? : Json → Option (Option String)
  | .text s => some (some s)
  | .number n => some (some n.text)
  | .bool b => some (some (Json.boolText b))
  | .null => some none
  | _ => none

def scalars (blockId part : String) : List (String × Json) → Except Error (Dict String)
  | [] => .ok []
  | (key, v) :: rest =>
    match scalarText? v with
    | none => .error (.document .json (.notScalar blockId part key v.compact))
    | some none => scalars blockId part rest
    | some (some text) => (scalars blockId part rest).map ((key, text) :: ·)

/-- The texts under a key of a record. A missing member, or one that is no object, has none. -/
def textsAt (record : Json) (blockId part : String) : Except Error (Dict String) :=
  match record.get? part with
  | some (.object members) => scalars blockId part members
  | _ => .ok []

def coordinate? : Json → Option Int64
  | .number (.int n) => some (Int64.ofInt (min n Int64.maxValue.toInt))
  | .number (.float x) => some x.toInt64
  | .text s => Text.readInt64? (Text.trim s)
  | _ => none

def positionOf (record : Json) : Option Position := do
  let holder := (record.get? "position").getD record
  let x ← (holder.get? "x").bind coordinate?
  let y ← (holder.get? "y").bind coordinate?
  return { x, y }

def sizeOf? : Json → Option UInt32
  | .number (.int n) => if 0 ≤ n ∧ n < UInt32.size then some (UInt32.ofNat n.toNat) else none
  | _ => none

def commentOf : Option Json → Option Comment
  | some (.text text) => some { text }
  | some (.object members) =>
    let comment := Json.object members
    some {
      text := (comment.getText? "text").getD ""
      pinned := (comment.getBool? "pinned").getD false
      width := (comment.get? "width").bind sizeOf?
      height := (comment.get? "height").bind sizeOf? }
  | _ => none

def mutationOf (attributes : Dict String) : Option Mutation :=
  if attributes.isEmpty then none else some attributes

def attributesOf (record : Json) (id : String) (mutation : Dict String) : Attributes :=
  { id
    position := positionOf record
    disabled := (record.getBool? "disabled").getD false
    collapsed := (record.getBool? "collapsed").getD false
    inline := record.getBool? "inline"
    deletable := record.getBool? "deletable"
    movable := record.getBool? "movable"
    mutation := mutationOf mutation
    comment := commentOf (record.get? "comment") }

/-! ## Records -/

abbrev Records := List (String × Json)

def Records.ids (records : Records) : List String :=
  records.map Prod.fst

def explicitIds (values : List Json) : List String :=
  values.filterMap (·.getText? "id")

/-- Gives each record its identifier: its own, or a fresh one. `done` are the records before, the
last one first. The count of identifiers made so far is carried along. -/
def recordsFrom (explicit : List String) :
    (index count : Nat) → (done : Records) → List Json → Except Error (Records × Nat)
  | _, count, done, [] => .ok (done.reverse, count)
  | index, count, done, v :: vs =>
    if v.isObject then
      let (id, count) := match v.getText? "id" with
        | some id => (id, count)
        | none =>
          let n := fresh count (explicit ++ done.ids)
          (generatedId n, n)
      if done.ids.contains id then .error (.malformed id .duplicateId)
      else recordsFrom explicit (index + 1) count ((id, v) :: done) vs
    else .error (.document .json (.recordNotObject index))

def recordsOf (values : List Json) : Except Error (Records × Nat) :=
  recordsFrom (explicitIds values) 0 0 [] values

/-! ## References -/

mutual

/-- The identifiers that a value in a slot refers to: itself, or those inside a block written in
place. -/
def slotReferences : Json → List String
  | .text id => [id]
  | .object members => references members
  | _ => []

def references : List (String × Json) → List String
  | [] => []
  | (key, v) :: rest =>
    (if key = "value-slots" ∨ key = "statement-slots" then slotsReferences v
     else if key = "next" then slotReferences v
     else []) ++ references rest

def slotsReferences : Json → List String
  | .object members => memberReferences members
  | _ => []

def memberReferences : List (String × Json) → List String
  | [] => []
  | (_, v) :: rest => slotReferences v ++ memberReferences rest

end

/-! ## Building -/

/-- What is known while blocks are built: the records that were referred to or are roots, the
identifiers of all blocks, and the count of identifiers made. -/
structure Progress where
  used : List String
  seen : List String
  count : Nat

abbrev Building := StateT Progress (Except Error)

def see (id : String) : Building Unit := do
  let p ← get
  if p.seen.contains id then throw (.malformed id .duplicateId)
  set { p with seen := id :: p.seen }

def use (id : String) : Building Unit := do
  let p ← get
  if p.used.contains id then throw (.malformed id .shared)
  set { p with used := id :: p.used }

def nestedId (records : Records) (v : Json) : Building String :=
  match v.getText? "id" with
  | some id => pure id
  | none => do
    let p ← get
    let n := fresh p.count (records.ids ++ p.seen)
    set { p with count := n }
    return generatedId n

structure Parts where
  values : Building (List (String × Block)) := pure []
  statements : Building (List (String × Block)) := pure []
  next : Building (Option Block) := pure none

/-- Builds a block, the values before the statements and these before what comes next. -/
def assemble (id : String) (record : Json) (parts : Parts) : Building Block := do
  see id
  match record.getText? "type" with
  | none => throw (.malformed id .noTag)
  | some tag => do
    let fields ← textsAt record id "fields"
    let mutation ← textsAt record id "mutation"
    let values ← parts.values
    let statements ← parts.statements
    let next ← parts.next
    return { tag, attrs := attributesOf record id mutation, fields, values, statements, next }

abbrev Follow := (id : String) → (record : Json) → Building Block

mutual

/-- Builds what stands in a slot of the block `parent`: a block written in place, or the record that
a reference names. -/
def buildTarget (records : Records) (follow : Follow) (parent : String) : Json → Building Block
  | .text id =>
    match Dict.get? id records with
    | none => throw (.malformed parent (.unknownReference id))
    | some record => follow id record
  | .object members => do
    let id ← nestedId records (.object members)
    if records.ids.contains id then throw (.malformed id .duplicateId)
    assemble id (.object members) (partsOf records follow id members)
  | _ => throw (.malformed parent .badSlot)
termination_by structural target => target

/-- Builds what stands in the slots of the block `parent`, in the order of their names; null stands
for an empty slot. -/
def buildSlots (records : Records) (follow : Follow) (parent : String) :
    List (String × Json) → Building (List (String × Block))
  | [] => pure []
  | (name, target) :: rest =>
    if target.isNull then buildSlots records follow parent rest
    else do
      let b ← buildTarget records follow parent target
      let others ← buildSlots records follow parent rest
      return (name, b) :: others
termination_by structural slots => slots

def buildDict (records : Records) (follow : Follow) (parent : String) :
    Json → Building (List (String × Block))
  | .object slots => buildSlots records follow parent slots
  | _ => pure []
termination_by structural dict => dict

def partsOf (records : Records) (follow : Follow) (parent : String) : List (String × Json) → Parts
  | [] => {}
  | (key, v) :: rest =>
    let parts := partsOf records follow parent rest
    if key = "value-slots" then { parts with values := buildDict records follow parent v }
    else if key = "statement-slots" then
      { parts with statements := buildDict records follow parent v }
    else if key = "next" ∧ !v.isNull then
      { parts with next := some <$> buildTarget records follow parent v }
    else parts
termination_by structural members => members

end

/-- Builds a record inside the open records `path`. A path has every record at most once, so a limit of
as many records as there are is never reached. -/
def buildRecord (records : Records) :
    (limit : Nat) → (path : List String) → (id : String) → Json → Building Block
  | 0, _, id, _ => throw (.malformed id .cycle)
  | limit + 1, path, id, record =>
    let follow : Follow := fun id' record' =>
      if (id :: path).contains id' then throw (.malformed id' .cycle)
      else do
        use id'
        buildRecord records limit (id :: path) id' record'
    assemble id record (partsOf records follow id record.members)

def buildRoots (records : Records) (referenced : List String) :
    List (String × Json) → Building (List Block)
  | [] => pure []
  | (id, record) :: rest =>
    if referenced.contains id then buildRoots records referenced rest
    else do
      modify fun p => { p with used := id :: p.used }
      let b ← buildRecord records records.length [] id record
      let others ← buildRoots records referenced rest
      return b :: others

/-- Reads the blocks of a list of records. Every record must be a root or be reached from one. -/
def ofRecords (values : List Json) : Except Error (List Block) := do
  let (records, count) ← recordsOf values
  let referenced := values.flatMap slotReferences
  let (roots, p) ← (buildRoots records referenced records).run { used := [], seen := [], count }
  match records.ids.find? fun id => !p.used.contains id with
  | some id => throw (.malformed id .onlyInCycle)
  | none => return roots

def ofJson : Json → Except Error (List Block)
  | .array values => ofRecords values
  | .object members =>
    match Dict.get? "blocks" members with
    | some (.array values) => ofRecords values
    | _ => .error (.document .json .noBlocks)
  | _ => .error (.document .json .notAnObject)

end Blockwork.Block
