import Mathlib.Data.List.Basic

/-! # Reading expressions by precedence

Tokens are read from the left. A stack keeps a frame for each operator that waits for its right operand and for
each bracket that is open, and an operator that binds less tightly than those before it completes them.
-/

namespace Blockwork.Precedence

set_option autoImplicit false

open List (foldlM_cons foldlM_append Forall₂)

/-! ## Tokens and trees -/

/-- How tightly an operator between two operands binds, and how tightly its operands must bind at least. -/
structure Binding where
  level : Nat
  left : Nat
  right : Nat
deriving DecidableEq

/-- The operators of a language. A sign may be an operator before one operand, between two operands, or both. -/
structure Table (β υ : Type) where
  binary? : String → Option β
  unary? : String → Option υ
  binding : β → Binding
  level : υ → Nat

inductive Bracket where
  | round
  | square
  | curly
deriving DecidableEq

inductive Token (α : Type) where
  | atom (a : α)
  | sign (text : String)
  | opens (b : Bracket)
  | closes (b : Bracket)
  | comma
  | dot
deriving DecidableEq

inductive Tree (α β υ : Type) where
  | leaf (a : α)
  | unary (op : υ) (operand : Tree α β υ)
  | binary (op : β) (left right : Tree α β υ)
  | call (function : Tree α β υ) (args : List (Tree α β υ))
  | list (items : List (Tree α β υ))
  | member (whole : Tree α β υ) (name : α)
  | build (type : Tree α β υ) (items : List (Tree α β υ))

variable {α β υ : Type}

theorem Tree.foldl_binary_inj {op : β} {ts ts' : List (Tree α β υ)} {t t' : Tree α β υ} (hlength : ts.length = ts'.length)
    (h : ts.foldl (.binary op) t = ts'.foldl (.binary op) t') : t = t' ∧ ts = ts' := by
  induction ts generalizing ts' t t' with
  | nil =>
    cases ts' with
    | nil => exact ⟨h, rfl⟩
    | cons u us => cases hlength
  | cons u us ih =>
    cases ts' with
    | nil => cases hlength
    | cons u' us' =>
      obtain ⟨hfirst, hrest⟩ := ih (Nat.succ.inj hlength) h
      cases hfirst
      exact ⟨rfl, congrArg (u :: ·) hrest⟩

/-! ## The stack -/

/-- What items stand in: a list, a call of a function, or a value of a type. -/
inductive Holder (α β υ : Type) where
  | list
  | call (function : Tree α β υ)
  | build (type : Tree α β υ)

/-- What waits for the tree that is being read: an operator for its right operand, a bracket for its end. The
frame `items` has the trees before, the last one first. -/
inductive Frame (α β υ : Type) where
  | unary (op : υ)
  | binary (op : β) (left : Tree α β υ)
  | group
  | items (holder : Holder α β υ) (done : List (Tree α β υ))

def itemsEnd : Holder α β υ → Bracket
  | .list => .square
  | .call _ => .round
  | .build _ => .curly

def collected : Holder α β υ → List (Tree α β υ) → Tree α β υ
  | .list, items => .list items
  | .call function, items => .call function items
  | .build type, items => .build type items

namespace Table

variable (T : Table β υ)

def binds (k : Nat) : Frame α β υ → Bool
  | .unary op => k ≤ T.level op
  | .binary op _ => k ≤ (T.binding op).level
  | .group | .items .. => false

def need : Frame α β υ → Nat
  | .unary op => T.level op
  | .binary op _ => (T.binding op).right
  | .group | .items .. => 0

def permits (n : Nat) : List (Frame α β υ) → Bool
  | [] => true
  | frame :: _ => T.need frame ≤ n

def applied : Frame α β υ → Tree α β υ → Tree α β υ
  | .unary op, t => .unary op t
  | .binary op left, t => .binary op left t
  | .group, t | .items .., t => t

def reduce (k : Nat) : List (Frame α β υ) → Tree α β υ → List (Frame α β υ) × Tree α β υ
  | [], t => ([], t)
  | frame :: frames, t =>
    if T.binds k frame then reduce k frames (applied frame t) else (frame :: frames, t)

/-! ## The machine -/

/-- Whether an operand comes next, or one has been read, or a name comes after a dot. -/
inductive State (α β υ : Type) where
  | awaits (frames : List (Frame α β υ))
  | holds (frames : List (Frame α β υ)) (t : Tree α β υ)
  | selects (frames : List (Frame α β υ)) (t : Tree α β υ)

def start (frames : List (Frame α β υ)) : Token α → Option (State α β υ)
  | .atom a => some (.holds frames (.leaf a))
  | .sign s => (T.unary? s).bind fun op =>
    if T.permits (T.level op) frames then some (.awaits (.unary op :: frames)) else none
  | .opens .round => some (.awaits (.group :: frames))
  | .opens .square => some (.awaits (.items .list [] :: frames))
  | .closes b =>
    match frames with
    | .items holder [] :: rest =>
      if itemsEnd holder = b then some (.holds rest (collected holder [])) else none
    | _ => none
  | .opens .curly | .comma | .dot => none

def place (op : β) (reduced : List (Frame α β υ) × Tree α β υ) : Option (State α β υ) :=
  if T.permits (T.binding op).level reduced.1 then some (.awaits (.binary op reduced.2 :: reduced.1)) else none

def finish (b : Bracket) : List (Frame α β υ) × Tree α β υ → Option (State α β υ)
  | (.group :: rest, t) => if b = .round then some (.holds rest t) else none
  | (.items holder done :: rest, t) =>
    if itemsEnd holder = b then some (.holds rest (collected holder (t :: done).reverse)) else none
  | _ => none

def another : List (Frame α β υ) × Tree α β υ → Option (State α β υ)
  | (.items holder done :: rest, t) => some (.awaits (.items holder (t :: done) :: rest))
  | _ => none

def proceed (frames : List (Frame α β υ)) (t : Tree α β υ) : Token α → Option (State α β υ)
  | .sign s => (T.binary? s).bind fun op => T.place op (T.reduce (T.binding op).left frames t)
  | .opens .round => some (.awaits (.items (.call t) [] :: frames))
  | .opens .curly => some (.awaits (.items (.build t) [] :: frames))
  | .closes b => finish b (T.reduce 0 frames t)
  | .comma => another (T.reduce 0 frames t)
  | .dot => some (.selects frames t)
  | .atom _ | .opens .square => none

def step : State α β υ → Token α → Option (State α β υ)
  | .awaits frames, token => T.start frames token
  | .holds frames t, token => T.proceed frames t token
  | .selects frames t, .atom a => some (.holds frames (.member t a))
  | .selects .., _ => none

def result? : State α β υ → Option (Tree α β υ)
  | .holds frames t =>
    match T.reduce 0 frames t with
    | ([], whole) => some whole
    | _ => none
  | _ => none

def parse? (tokens : List (Token α)) : Option (Tree α β υ) :=
  (tokens.foldlM T.step (.awaits [])).bind T.result?

end Table

/-! ## What tokens are read as -/

namespace Table

/-- After its left operand, an operator completes no operator before that may have it as an operand. -/
structure Lawful (T : Table β υ) : Prop where
  left : ∀ op, (T.binding op).level ≤ (T.binding op).left
  binary : ∀ op op', (T.binding op).right ≤ (T.binding op').level → (T.binding op).level < (T.binding op').left
  unary : ∀ op op', T.level op ≤ (T.binding op').level → T.level op < (T.binding op').left

variable {T : Table β υ}

theorem permits_mono {m n : Nat} {frames : List (Frame α β υ)} (h : T.permits m frames = true) (hmn : m ≤ n) :
    T.permits n frames = true := by
  cases frames with
  | nil => rfl
  | cons frame rest =>
    simp only [permits, decide_eq_true_eq] at h ⊢
    omega

theorem reduce_left (hT : T.Lawful) (op : β) {frames : List (Frame α β υ)}
    (h : T.permits (T.binding op).level frames = true) (t : Tree α β υ) :
    T.reduce (T.binding op).left frames t = (frames, t) := by
  cases frames with
  | nil => rfl
  | cons frame rest =>
    have hbinds : T.binds (T.binding op).left frame = false := by
      simp only [permits, decide_eq_true_eq] at h
      cases frame with
      | unary op' =>
        have hlt := hT.unary op' op h
        simp only [binds, decide_eq_false_iff_not]
        omega
      | binary op' left =>
        have hlt := hT.binary op' op h
        simp only [binds, decide_eq_false_iff_not]
        omega
      | group => rfl
      | items holder done => rfl
    simp [reduce, hbinds]

/-- Tokens are read as a tree of a level. Operators of the tree may still be on the stack, but whatever completes
operators of that level completes them. -/
def Reads (T : Table β υ) (n : Nat) (tokens : List (Token α)) (t : Tree α β υ) : Prop :=
  ∀ frames, T.permits n frames = true → ∃ frames' t',
    tokens.foldlM T.step (.awaits frames) = some (.holds frames' t') ∧
      ∀ k ≤ n, T.reduce k frames' t' = T.reduce k frames t

variable {n : Nat} {tokens tokens' : List (Token α)} {t t' : Tree α β υ}

theorem Reads.mono {m : Nat} (h : T.Reads n tokens t) (hmn : m ≤ n) : T.Reads m tokens t := by
  intro frames hframes
  obtain ⟨frames', t', hrun, hreduce⟩ := h frames (permits_mono hframes hmn)
  refine ⟨frames', t', hrun, ?_⟩
  intro k hk
  exact hreduce k (by omega)

theorem Reads.exists_cons (h : T.Reads n tokens t) :
    ∃ token rest, tokens = token :: rest ∧ ∀ s, token = .sign s → (T.unary? s).isSome = true := by
  obtain ⟨frames', t', hrun, -⟩ := h [] rfl
  cases tokens with
  | nil => cases hrun
  | cons token rest =>
    refine ⟨token, rest, rfl, ?_⟩
    rintro s rfl
    cases hs : T.unary? s with
    | none =>
      rw [foldlM_cons, step, start, hs] at hrun
      cases hrun
    | some op => rfl

theorem parse?_of_reads (h : T.Reads n tokens t) : T.parse? tokens = some t := by
  obtain ⟨frames', t', hrun, hreduce⟩ := h [] rfl
  have hzero : T.reduce 0 frames' t' = ([], t) := hreduce 0 (Nat.zero_le n)
  simp [parse?, hrun, result?, hzero]

def Completes (T : Table β υ) (tokens : List (Token α)) (t : Tree α β υ) : Prop :=
  ∀ frames, tokens.foldlM T.step (.awaits frames) = some (.holds frames t)

theorem Completes.reads (h : T.Completes tokens t) : T.Reads n tokens t := by
  intro frames _
  exact ⟨frames, t, h frames, fun _ _ => rfl⟩

theorem completes_atom (a : α) : T.Completes [.atom a] (.leaf a) :=
  fun _ => rfl

theorem reads_unary {s : String} {op : υ} (hs : T.unary? s = some op) (h : T.Reads (T.level op) tokens t) :
    T.Reads (T.level op) (.sign s :: tokens) (.unary op t) := by
  intro frames hframes
  have hpermits : T.permits (T.level op) (Frame.unary op :: frames) = true := by
    simp [permits, need]
  obtain ⟨frames', t', hrun, hreduce⟩ := h (.unary op :: frames) hpermits
  refine ⟨frames', t', ?_, ?_⟩
  · rw [foldlM_cons, ← hrun]
    simp [step, start, hs, hframes]
  · intro k hk
    rw [hreduce k hk]
    simp [reduce, binds, hk, applied]

theorem reads_binary (hT : T.Lawful) {s : String} {op : β} (hs : T.binary? s = some op)
    (hn : n ≤ (T.binding op).level ∧ n ≤ (T.binding op).right) (h : T.Reads (T.binding op).left tokens t)
    (h' : T.Reads (T.binding op).right tokens' t') :
    T.Reads n (tokens ++ .sign s :: tokens') (.binary op t t') := by
  intro frames hframes
  have hlevel : T.permits (T.binding op).level frames = true := permits_mono hframes hn.1
  obtain ⟨frames₁, t₁, hrun₁, hreduce₁⟩ := h frames (permits_mono hlevel (hT.left op))
  have hleft : T.reduce (T.binding op).left frames₁ t₁ = (frames, t) := by
    rw [hreduce₁ _ (Nat.le_refl _)]
    exact reduce_left hT op hlevel t
  have hstep : T.step (.holds frames₁ t₁) (.sign s) = some (.awaits (.binary op t :: frames)) := by
    simp [step, proceed, hs, hleft, place, hlevel]
  have hpermits : T.permits (T.binding op).right (Frame.binary op t :: frames) = true := by
    simp [permits, need]
  obtain ⟨frames₂, t₂, hrun₂, hreduce₂⟩ := h' (.binary op t :: frames) hpermits
  refine ⟨frames₂, t₂, ?_, ?_⟩
  · rw [foldlM_append, hrun₁, Option.bind_eq_bind, Option.bind_some, foldlM_cons, hstep]
    exact hrun₂
  · intro k hk
    have hkl : k ≤ (T.binding op).level := by omega
    have hkr : k ≤ (T.binding op).right := by omega
    rw [hreduce₂ k hkr]
    simp [reduce, binds, hkl, applied]

theorem completes_member (h : T.Completes tokens t) (a : α) : T.Completes (tokens ++ [.dot, .atom a]) (.member t a) := by
  intro frames
  rw [foldlM_append, h frames]
  rfl

theorem completes_group (h : T.Reads 0 tokens t) : T.Completes (.opens .round :: tokens ++ [.closes .round]) t := by
  intro frames
  obtain ⟨frames', t', hrun, hreduce⟩ := h (.group :: frames) rfl
  have hzero : T.reduce 0 frames' t' = (.group :: frames, t) := by
    rw [hreduce 0 (Nat.le_refl 0)]
    simp [reduce, binds]
  have hopen : T.step (.awaits frames) (.opens .round) = some (.awaits (.group :: frames)) := rfl
  rw [List.cons_append, foldlM_cons, hopen, Option.bind_eq_bind, Option.bind_some, foldlM_append, hrun]
  simp [step, proceed, hzero, finish]

/-! ### Items -/

theorem reduce_items (k : Nat) (holder : Holder α β υ) (done : List (Tree α β υ))
    (frames : List (Frame α β υ)) (t : Tree α β υ) :
    T.reduce k (.items holder done :: frames) t = (.items holder done :: frames, t) := by
  simp [reduce, binds]

def separated : List (List (Token α)) → List (Token α)
  | [] => []
  | [tokens] => tokens
  | tokens :: more :: rest => tokens ++ .comma :: separated (more :: rest)

theorem run_items {texts : List (List (Token α))} {items : List (Tree α β υ)}
    (h : Forall₂ (T.Reads 0) texts items) (hne : texts ≠ []) (holder : Holder α β υ)
    (done : List (Tree α β υ)) (frames : List (Frame α β υ)) :
    (separated texts ++ [Token.closes (itemsEnd holder)]).foldlM T.step (.awaits (.items holder done :: frames)) =
      some (.holds frames (collected holder (done.reverse ++ items))) := by
  induction h generalizing done with
  | nil => exact absurd rfl hne
  | @cons tokens t texts items hhead hrest ih =>
    obtain ⟨frames', t', hrun, hreduce⟩ := hhead (.items holder done :: frames) rfl
    have hzero : T.reduce 0 frames' t' = (.items holder done :: frames, t) := by
      rw [hreduce 0 (Nat.le_refl 0), reduce_items]
    cases hrest with
    | nil =>
      rw [separated, foldlM_append, hrun]
      simp [step, proceed, hzero, finish]
    | @cons tokens' u texts' items' hnext hrest' =>
      have hstep : T.step (.holds frames' t') .comma = some (.awaits (.items holder (t :: done) :: frames)) := by
        simp [step, proceed, hzero, another]
      have hmore := ih (List.cons_ne_nil _ _) (t :: done)
      rw [List.reverse_cons, List.append_assoc, List.singleton_append] at hmore
      rw [separated, List.append_assoc, foldlM_append, hrun, Option.bind_eq_bind, Option.bind_some,
        List.cons_append, foldlM_cons, hstep]
      exact hmore

section Items

variable {texts : List (List (Token α))} {items : List (Tree α β υ)}

theorem run_allItems (h : Forall₂ (T.Reads 0) texts items) (holder : Holder α β υ)
    (frames : List (Frame α β υ)) :
    (separated texts ++ [Token.closes (itemsEnd holder)]).foldlM T.step (.awaits (.items holder [] :: frames)) =
      some (.holds frames (collected holder items)) := by
  by_cases hne : texts = []
  · subst hne
    cases h
    simp [separated, step, start]
  · exact run_items h hne holder [] frames

theorem completes_list (h : Forall₂ (T.Reads 0) texts items) :
    T.Completes (.opens .square :: separated texts ++ [.closes .square]) (.list items) :=
  fun frames => run_allItems h .list frames

theorem completes_items {tokens : List (Token α)} {t : Tree α β υ} {b : Bracket} (holder : Holder α β υ)
    (ht : T.Completes tokens t) (hb : ∀ frames, T.proceed frames t (.opens b) = some (.awaits (.items holder [] :: frames)))
    (h : Forall₂ (T.Reads 0) texts items) :
    T.Completes (tokens ++ .opens b :: separated texts ++ [.closes (itemsEnd holder)]) (collected holder items) := by
  intro frames
  have hopen : T.step (.holds frames t) (.opens b) = some (.awaits (.items holder [] :: frames)) := hb frames
  rw [List.append_assoc, foldlM_append, ht frames, Option.bind_eq_bind, Option.bind_some, List.cons_append,
    foldlM_cons, hopen, Option.bind_eq_bind, Option.bind_some]
  exact run_allItems h holder frames

theorem completes_call {tokens : List (Token α)} {function : Tree α β υ} (hfunction : T.Completes tokens function)
    (h : Forall₂ (T.Reads 0) texts items) :
    T.Completes (tokens ++ .opens .round :: separated texts ++ [.closes .round]) (.call function items) :=
  completes_items (.call function) hfunction (fun _ => rfl) h

theorem completes_build {tokens : List (Token α)} {type : Tree α β υ} (htype : T.Completes tokens type)
    (h : Forall₂ (T.Reads 0) texts items) :
    T.Completes (tokens ++ .opens .curly :: separated texts ++ [.closes .curly]) (.build type items) :=
  completes_items (.build type) htype (fun _ => rfl) h

end Items

end Table

end Blockwork.Precedence
