import Mathlib.Logic.Function.Basic
import Mathlib.Tactic.SplitIfs
import Blockwork.Proofs.PythonExpressions
import Blockwork.Source.Basic

/-! # How counting loops count

A counting loop over integer literals is a `range` in Python, and a loop with a test and a step in a sketch.
-/

namespace Blockwork

set_option autoImplicit false

def reaches (down : Bool) (i last : Int) : Bool :=
  if down then last ≤ i else i ≤ last

def toward (down : Bool) (size : Int) : Int :=
  if down then -size else size

namespace Python

/-- The values of `range(start, stop, step)`: the start, and the step added again and again, before the stop. -/
def rangeValues (start stop step : Int) : List Int :=
  if (0 < step ∧ start < stop) ∨ (step < 0 ∧ stop < start) then start :: rangeValues (start + step) stop step else []
termination_by ((stop - start) * step.sign).toNat
decreasing_by
  rename_i h
  rcases h with ⟨hstep, h⟩ | ⟨hstep, h⟩
  · rw [Int.sign_eq_one_of_pos hstep]
    omega
  · rw [Int.sign_eq_neg_one_of_neg hstep]
    omega

/-! ## The helper -/

inductive Param where
  | start
  | stop
  | step
deriving DecidableEq

def Param.text : Param → String
  | start => "start"
  | stop => "stop"
  | step => "step"

inductive Term where
  | param (p : Param)
  | number (n : Nat)
  | abs (t : Term)
  /-- The first value, or the second one where that is zero. -/
  | or (t u : Term)

def Term.text : Term → String
  | param p => p.text
  | number n => Text.natText n
  | abs t => "abs(" ++ t.text ++ ")"
  | or t u => t.text ++ " or " ++ u.text

def Term.eval (env : Param → Int) : Term → Int
  | param p => env p
  | number n => n
  | abs t => (t.eval env).natAbs
  | or t u => if t.eval env = 0 then u.eval env else t.eval env

inductive Code where
  | assign (p : Param) (value : Term)
  | move (down : Bool) (p size : Param)
  | gives (p : Param)
  | choose (first last : Param) (up down : List Code)
  | loop (down : Bool) (p last : Param) (body : List Code)

mutual

def Code.lines (depth : Nat) : Code → List Line
  | .assign p value => [{ depth, text := p.text ++ " = " ++ value.text }]
  | .move down p size => [{ depth, text := p.text ++ (if down then " -= " else " += ") ++ size.text }]
  | .gives p => [{ depth, text := "yield " ++ p.text }]
  | .choose first last up down =>
    { depth, text := "if " ++ first.text ++ " <= " ++ last.text ++ ":" } :: Code.linesOf (depth + 1) up
      ++ { depth, text := "else:" } :: Code.linesOf (depth + 1) down
  | .loop down p last body =>
    { depth, text := "while " ++ p.text ++ (if down then " >= " else " <= ") ++ last.text ++ ":" }
      :: Code.linesOf (depth + 1) body

def Code.linesOf (depth : Nat) : List Code → List Line
  | [] => []
  | code :: rest => code.lines depth ++ Code.linesOf depth rest

end

/-- The values that statements yield before they end. -/
inductive Yields : List Code → (Param → Int) → List Int → Prop
  | nil {env} : Yields [] env []
  | assign {p value rest env xs} (h : Yields rest (Function.update env p (value.eval env)) xs) :
    Yields (.assign p value :: rest) env xs
  | move {down p size rest env xs} (h : Yields rest (Function.update env p (env p + toward down (env size))) xs) :
    Yields (.move down p size :: rest) env xs
  | gives {p rest env xs} (h : Yields rest env xs) : Yields (.gives p :: rest) env (env p :: xs)
  | choose {first last up down rest env xs}
    (h : Yields ((if env first ≤ env last then up else down) ++ rest) env xs) :
    Yields (.choose first last up down :: rest) env xs
  | again {down p last body rest env xs} (htest : reaches down (env p) (env last) = true)
    (h : Yields (body ++ .loop down p last body :: rest) env xs) : Yields (.loop down p last body :: rest) env xs
  | done {down p last body rest env xs} (htest : reaches down (env p) (env last) = false) (h : Yields rest env xs) :
    Yields (.loop down p last body :: rest) env xs

theorem Yields.unique {code : List Code} {env : Param → Int} {xs ys : List Int} (hxs : Yields code env xs)
    (hys : Yields code env ys) : xs = ys := by
  induction hxs generalizing ys with
  | nil => cases hys; rfl
  | assign _ ih => cases hys with | assign h => exact ih h
  | move _ ih => cases hys with | move h => exact ih h
  | gives _ ih => cases hys with | gives h => rw [ih h]
  | choose _ ih => cases hys with | choose h => exact ih h
  | again htest _ ih =>
    cases hys with
    | again _ h => exact ih h
    | done hfails _ => rw [htest] at hfails; cases hfails
  | done htest _ ih =>
    cases hys with
    | again hholds _ => rw [htest] at hholds; cases hholds
    | done _ h => exact ih h

def countLoop (down : Bool) : Code :=
  .loop down .start .stop [.gives .start, .move down .start .step]

def counting : List Code :=
  [.assign .step (.or (.abs (.param .step)) (.number 1)), .choose .start .stop [countLoop false] [countLoop true]]

theorem rangeHelper_eq :
    rangeHelper = { depth := 0, text := "def blockly_range(start, stop, step):" } :: Code.linesOf 1 counting := by
  decide +kernel

/-- What is written for a loop over integers. -/
def rangeText (first last step : Int) : String :=
  "range(" ++ Text.intText (wholeRange first last step).1 ++ ", " ++ Text.intText (wholeRange first last step).2.1
    ++ ", " ++ Text.intText (wholeRange first last step).2.2 ++ ")"

/-- The values of the range of a loop over integers. -/
def countValues (first last step : Int) : List Int :=
  rangeValues (wholeRange first last step).1 (wholeRange first last step).2.1 (wholeRange first last step).2.2

/-- The values of the parameters in a call of the helper. -/
def arguments (start stop step : Int) : Param → Int
  | .start => start
  | .stop => stop
  | .step => step

theorem inRange_iff (down : Bool) {size : Int} (hsize : 0 < size) (i last : Int) :
    ((0 < toward down size ∧ i < last + toward down 1) ∨ (toward down size < 0 ∧ last + toward down 1 < i)) ↔
      reaches down i last = true := by
  cases down <;> simp [toward, reaches] <;> omega

theorem yields_countLoop (down : Bool) {size : Int} (hsize : 0 < size) (start last : Int) :
    Yields [countLoop down] (arguments start last size)
      (rangeValues start (last + toward down 1) (toward down size)) := by
  fun_induction rangeValues start (last + toward down 1) (toward down size) with
  | case1 start h ih =>
    have hmoved : Function.update (arguments start last size) .start (start + toward down size) =
        arguments (start + toward down size) last size := by
      funext p
      cases p <;> simp [arguments]
    have hrest : Yields [.move down .start .step, countLoop down] (arguments start last size) _ := .move (hmoved ▸ ih)
    exact .again ((inRange_iff down hsize start last).mp h) hrest.gives
  | case2 start h =>
    have hends : reaches down start last = false := by
      simpa using fun hreaches => h ((inRange_iff down hsize start last).mpr hreaches)
    exact .done hends .nil

theorem wholeRange_eq (first last step : Int) :
    wholeRange first last step =
      (first, last + toward (last < first) 1, toward (last < first) (max (step.natAbs : Int) 1)) := by
  unfold wholeRange
  split
  · next h =>
    have hup : ¬last < first := by omega
    simp [hup, toward]
  · next h =>
    have hdown : last < first := by omega
    simp [hdown, toward, Int.sub_eq_add_neg]

theorem yields_counting (start stop step : Int) :
    Yields counting (arguments start stop step) (countValues start stop step) := by
  have hsize : 0 < max (step.natAbs : Int) 1 := by omega
  have hstep : Function.update (arguments start stop step) .step
      ((Term.or (.abs (.param .step)) (.number 1)).eval (arguments start stop step)) =
      arguments start stop (max (step.natAbs : Int) 1) := by
    have hvalue : (if (step.natAbs : Int) = 0 then 1 else (step.natAbs : Int)) = max (step.natAbs : Int) 1 := by
      split <;> omega
    funext p
    cases p with
    | step => exact (Function.update_self ..).trans hvalue
    | _ => rfl
  have hchosen : (if start ≤ stop then [countLoop false] else [countLoop true]) ++ [] =
      [countLoop (stop < start)] := by
    by_cases h : start ≤ stop <;> simp [h, Int.not_lt.mpr, Int.not_le.mp]
  refine .assign (.choose ?_)
  rw [hstep, countValues, wholeRange_eq]
  exact hchosen ▸ yields_countLoop _ hsize start stop

theorem range_eq (names : Source.Names) {first last step : Expr} {a b c : Int}
    (h : wholeBounds? first last step = some (a, b, c)) : range names first last step = rangeText a b c := by
  rw [range, h]
  rfl

/-- The values of the `range` that is written for a loop over integer literals are those that the helper yields, and
no number on the way is too large for 64 bits. -/
theorem range_counts_like_helper {a b c : Int} (ha : a.natAbs < Nat.pow 10 15) (hb : b.natAbs < Nat.pow 10 15)
    (hc : c.natAbs < Nat.pow 10 15) :
    (∀ names first last step, wholeBounds? first last step = some (a, b, c) →
      range names first last step = rangeText a b c) ∧
    rangeHelper = { depth := 0, text := "def blockly_range(start, stop, step):" } :: Code.linesOf 1 counting ∧
    (∀ xs, Yields counting (arguments a b c) xs ↔ xs = countValues a b c) ∧
    ∀ n ∈ [a, b, c, (c.natAbs : Int), max (c.natAbs : Int) 1, -max (c.natAbs : Int) 1, b + 1, b - 1],
      Int64.minValue.toInt ≤ n ∧ n ≤ Int64.maxValue.toInt := by
  refine ⟨?_, rangeHelper_eq, ?_, ?_⟩
  · exact fun names first last step h => range_eq names h
  · intro xs
    exact ⟨fun h => h.unique (yields_counting a b c), fun h => h ▸ yields_counting a b c⟩
  · have hlimit : Nat.pow 10 15 = 1000000000000000 := by decide
    have hmin : Int64.minValue.toInt = -9223372036854775808 := by decide
    have hmax : Int64.maxValue.toInt = 9223372036854775807 := by decide
    rw [hmin, hmax]
    simp only [List.mem_cons, List.not_mem_nil, or_false]
    rintro n (rfl | rfl | rfl | rfl | rfl | rfl | rfl | rfl) <;> omega

theorem range_counts_down :
    rangeText 10 1 (-4) = "range(10, 0, -4)" ∧ Yields counting (arguments 10 1 (-4)) [10, 6, 2] := by
  have hvalues : [10, 6, 2] = countValues 10 1 (-4) := by cbv
  have hcounts := range_counts_like_helper (a := 10) (b := 1) (c := -4) (by decide) (by decide) (by decide)
  exact ⟨by decide +kernel, (hcounts.2.2.1 _).mpr hvalues⟩

end Python

namespace Arduino

/-! ## Loops of sketches -/

/-- The integer of 53 significant bits that is nearest to another one, the even one of two: how a sum is rounded. -/
def nearest (n : Int) : Int :=
  let unit := Nat.pow 2 (Nat.log2 n.natAbs - 52)
  n.sign * (Binary64.nearestEven n.natAbs unit * unit : Nat)

/-- The values of the counter for which `for (i = first; i <= last; i += step)`, or the like with `>=` and `-=`, runs
its body before it ends. The body leaves the counter alone. -/
inductive Iterates (down : Bool) (last step : Int) : (first : Int) → List Int → Prop
  | done {i : Int} (h : reaches down i last = false) : Iterates down last step i []
  | again {i : Int} {xs : List Int} (h : reaches down i last = true)
    (hrest : Iterates down last step (nearest (i + toward down step)) xs) : Iterates down last step i (i :: xs)

variable {n last step i : Int} {down : Bool}

theorem nearest_of_lt (h : n.natAbs < Nat.pow 2 53) : nearest n = n := by
  have hlog : Nat.log2 n.natAbs - 52 = 0 := by
    by_cases hzero : n.natAbs = 0
    · rw [hzero]
      decide
    · have hlt := (Nat.log2_lt hzero).mpr h
      omega
  have hunit : Binary64.nearestEven n.natAbs 1 = n.natAbs := by
    simp [Binary64.nearestEven, Nat.mod_one]
  rw [nearest, hlog]
  show n.sign * (Binary64.nearestEven n.natAbs 1 * 1 : Nat) = n
  rw [hunit, Nat.mul_one, Int.sign_mul_natAbs]

theorem le_natAbs_nearest (h : Nat.pow 2 53 ≤ n.natAbs) : ∃ m : Nat, Nat.pow 2 52 ≤ m ∧ nearest n = n.sign * m := by
  have hne : n.natAbs ≠ 0 := by
    have hpos : 0 < Nat.pow 2 53 := by decide
    omega
  have hunit : Nat.pow 2 52 * Nat.pow 2 (Nat.log2 n.natAbs - 52) ≤ n.natAbs := by
    have hlog : 53 ≤ Nat.log2 n.natAbs := (Nat.le_log2 hne).mpr h
    calc Nat.pow 2 52 * Nat.pow 2 (Nat.log2 n.natAbs - 52) = Nat.pow 2 (52 + (Nat.log2 n.natAbs - 52)) :=
          (Nat.pow_add 2 52 _).symm
      _ = Nat.pow 2 (Nat.log2 n.natAbs) := by rw [Nat.add_sub_cancel' (by omega)]
      _ ≤ n.natAbs := Nat.log2_self_le hne
  have hpos : 0 < Nat.pow 2 (Nat.log2 n.natAbs - 52) := Nat.pow_pos (by decide)
  have heven : ∀ num den, num / den ≤ Binary64.nearestEven num den := by
    intro num den
    unfold Binary64.nearestEven
    dsimp only
    split_ifs <;> omega
  refine ⟨_, ?_, rfl⟩
  calc Nat.pow 2 52 ≤ n.natAbs / Nat.pow 2 (Nat.log2 n.natAbs - 52) := (Nat.le_div_iff_mul_le hpos).mpr hunit
    _ ≤ Binary64.nearestEven n.natAbs (Nat.pow 2 (Nat.log2 n.natAbs - 52)) := heven _ _
    _ ≤ _ := Nat.le_mul_of_pos_right _ hpos

theorem reaches_nearest (hlast : last.natAbs < Nat.pow 10 15)
    (h : reaches down n last = true) : reaches down (nearest n) last = true := by
  have hlimit : Nat.pow 10 15 = 1000000000000000 := by decide
  have hsmall : Nat.pow 2 52 = 4503599627370496 := by decide
  have hlarge : Nat.pow 2 53 = 9007199254740992 := by decide
  by_cases hn : n.natAbs < Nat.pow 2 53
  · rw [nearest_of_lt hn]
    exact h
  · -- A sum that large is on the far side of the limit, and so is what it is rounded to.
    obtain ⟨m, hm, heq⟩ := le_natAbs_nearest (Nat.le_of_not_lt hn)
    rw [heq]
    cases down with
    | false =>
      have hneg : n < 0 := by simp [reaches] at h; omega
      simp [reaches, Int.sign_eq_neg_one_of_neg hneg]
      omega
    | true =>
      have hpos : 0 < n := by simp [reaches] at h; omega
      simp [reaches, Int.sign_eq_one_of_pos hpos]
      omega

theorem iterates_range (down : Bool) (hlast : last.natAbs < Nat.pow 10 15) (hpos : 0 < step)
    (hstep : step.natAbs < Nat.pow 10 15) (hi : i.natAbs < 2 * Nat.pow 10 15) :
    Iterates down last step i (Python.rangeValues i (last + toward down 1) (toward down step)) := by
  have hlimit : Nat.pow 10 15 = 1000000000000000 := by decide
  have hlarge : Nat.pow 2 53 = 9007199254740992 := by decide
  fun_induction Python.rangeValues i (last + toward down 1) (toward down step) with
  | case1 i h ih =>
    have hreaches := (Python.inRange_iff down hpos i last).mp h
    have hnext : (i + toward down step).natAbs < 2 * Nat.pow 10 15 := by
      cases down <;> simp [reaches, toward] at hreaches ⊢ <;> omega
    have hexact : nearest (i + toward down step) = i + toward down step := nearest_of_lt (by omega)
    exact .again hreaches (by rw [hexact]; exact ih hnext)
  | case2 i h =>
    exact .done (by simpa using fun hreaches => h ((Python.inRange_iff down hpos i last).mpr hreaches))

theorem Iterates.unique {xs ys : List Int} (hxs : Iterates down last step i xs)
    (hys : Iterates down last step i ys) : xs = ys := by
  induction hxs generalizing ys with
  | done h =>
    cases hys with
    | done => rfl
    | again h' _ => rw [h] at h'; cases h'
  | again h _ ih =>
    cases hys with
    | done h' => rw [h] at h'; cases h'
    | again _ hrest => rw [ih hrest]

/-- A loop whose step does not lead to its last value does not end. -/
theorem Iterates.step_pos {xs : List Int} (h : Iterates down last step i xs)
    (hlast : last.natAbs < Nat.pow 10 15) (hi : reaches down i last = true) : 0 < step := by
  induction h with
  | done hends => rw [hends] at hi; cases hi
  | @again i xs _ _ ih =>
    by_contra hstep
    have hnext : reaches down (i + toward down step) last = true := by
      cases down <;> simp [reaches, toward] at hi ⊢ <;> omega
    exact hstep (ih (reaches_nearest hlast hnext))

end Arduino

namespace Source

theorem natAbs_of_wholeValue? {x : Binary64} {n : Int} (h : wholeValue? x = some n) : n.natAbs < Nat.pow 10 15 := by
  unfold wholeValue? at h
  split at h
  · next hwhole =>
    cases h
    simpa using (Bool.and_eq_true_iff.mp hwhole).2
  · cases h

def IsLiteral (e : Expr) (n : Int) : Prop :=
  ∃ literal value attrs, e = .number literal value attrs ∧ wholeValue? value = some n

theorem isLiteral_of_wholeBounds? {first last step : Expr} {a b c : Int}
    (h : Python.wholeBounds? first last step = some (a, b, c)) :
    IsLiteral first a ∧ IsLiteral last b ∧ IsLiteral step c := by
  have hliteral : ∀ {e : Expr} {n : Int}, Python.wholeLiteral? e = some n → IsLiteral e n := by
    intro e n h
    cases e with
    | number literal value attrs => exact ⟨literal, value, attrs, rfl, h⟩
    | _ => cases h
  obtain ⟨a', ha, h⟩ := Option.bind_eq_some_iff.mp h
  obtain ⟨b', hb, h⟩ := Option.bind_eq_some_iff.mp h
  obtain ⟨c', hc, h⟩ := Option.bind_eq_some_iff.mp h
  cases h
  exact ⟨hliteral ha, hliteral hb, hliteral hc⟩

/-- A loop of a sketch over integer literals runs its body for the values of the `range` if its step is positive, and
does not end otherwise. -/
theorem counts_alike_iff {first last step : Expr} {a b c : Int}
    (h : Python.wholeBounds? first last step = some (a, b, c)) (counter : Var) (body : List Stmt) (attrs : Attributes)
    (names : Names) (depth : Nat) :
    { depth, text := "for " ++ names.get counter.name ++ " in " ++ Python.rangeText a b c ++ ":" } ∈
      Python.lines names depth (.count counter first last step body attrs) ∧
    (∀ lines, Arduino.lines names depth (.count counter first last step body attrs) = .ok lines →
      ∃ f l s, Arduino.expr names first = .ok f ∧ Arduino.expr names last = .ok l ∧ Arduino.expr names step = .ok s ∧
        { depth, text := Arduino.countHeader (b < a) (names.get counter.name) f l s ++ " \x7b" } ∈ lines) ∧
    ∀ xs, Arduino.Iterates (b < a) b c a xs ↔ 0 < c ∧ xs = Python.countValues a b c := by
  have hlimit : Nat.pow 10 15 = 1000000000000000 := by decide
  obtain ⟨⟨_, x, _, rfl, hx⟩, ⟨_, y, _, rfl, hy⟩, ⟨_, z, _, rfl, hz⟩⟩ := isLiteral_of_wholeBounds? h
  refine ⟨?_, ?_, ?_⟩
  · simp [Python.lines, Python.range_eq names h]
  · intro lines hlines
    rw [Arduino.lines] at hlines
    obtain ⟨name, hname, hlines⟩ := Except.bind_ok_iff.mp hlines
    obtain ⟨_, -, hname⟩ := Except.bind_ok_iff.mp hname
    cases hname
    obtain ⟨f, hf, hlines⟩ := Except.bind_ok_iff.mp hlines
    obtain ⟨l, hl, hlines⟩ := Except.bind_ok_iff.mp hlines
    obtain ⟨s, hs, hlines⟩ := Except.bind_ok_iff.mp hlines
    obtain ⟨inner, -, hlines⟩ := Except.bind_ok_iff.mp hlines
    cases hlines
    exact ⟨f, l, s, hf, hl, hs, by simp [Arduino.braced, Arduino.headed, Arduino.countsDown, hx, hy, Arduino.grouped]⟩
  · have hfirst := natAbs_of_wholeValue? hx
    have hlast := natAbs_of_wholeValue? hy
    have hstep := natAbs_of_wholeValue? hz
    have hreaches : reaches (b < a) a b = true := by
      by_cases hdown : b < a <;> simp [reaches, hdown] <;> omega
    have hcounts : 0 < c → Arduino.Iterates (b < a) b c a (Python.countValues a b c) := by
      intro hpos
      have hsize : max (c.natAbs : Int) 1 = c := by omega
      rw [Python.countValues, Python.wholeRange_eq, hsize]
      exact Arduino.iterates_range _ hlast hpos hstep (by omega)
    intro xs
    constructor
    · intro hxs
      have hpos := hxs.step_pos hlast hreaches
      exact ⟨hpos, hxs.unique (hcounts hpos)⟩
    · rintro ⟨hpos, rfl⟩
      exact hcounts hpos

theorem counts_alike_down :
    Python.wholeBounds? (.number "10" (.ofNat 10) { id := "a" }) (.number "1" (.ofNat 1) { id := "b" })
      (.number "4" (.ofNat 4) { id := "c" }) = some (10, 1, 4) ∧ Arduino.Iterates true 1 4 10 [10, 6, 2] := by
  have hwhole : Python.wholeBounds? (.number "10" (.ofNat 10) { id := "a" }) (.number "1" (.ofNat 1) { id := "b" })
      (.number "4" (.ofNat 4) { id := "c" }) = some (10, 1, 4) := by decide +kernel
  have hvalues : [10, 6, 2] = Python.countValues 10 1 4 := by cbv
  have hcounts := counts_alike_iff hwhole { name := "i", type := .number, attrs := { id := "d" } } [] { id := "d" } .none 0
  exact ⟨hwhole, (hcounts.2.2 _).mpr ⟨by decide, hvalues⟩⟩

end Source

namespace Program

/-- A loop from one to three, with a step of zero. -/
def standingLoop : Block :=
  { tag := Tag.count.name, attrs := { id := "a" }, fields := [("VAR", "i")],
    values := [("BY", numberBlock "b" "0"), ("FROM", numberBlock "c" "1"), ("TO", numberBlock "d" "3")] }

/-- In Python a step of zero counts as one, in a sketch it does not. -/
theorem standing_loop_never_ends :
    (∃ p, ofBlocks [standingLoop] false = .ok p ∧
      Source.generate .python {} p = .ok "for i in range(1, 4, 1):\n    pass\n" ∧
      Source.generate .arduino {} p = .ok ("#include <Arduino.h>\n\ndouble i;\n\nvoid setup() \x7b\n"
        ++ "    Serial.begin(9600);\n    for (i = 1; i <= 3; i += 0) \x7b\n    \x7d\n\x7d\n\nvoid loop() \x7b\n\x7d\n")) ∧
    Python.rangeValues 1 4 1 = [1, 2, 3] ∧ ¬∃ xs, Arduino.Iterates false 3 0 1 xs := by
  refine ⟨?_, by cbv, ?_⟩
  · apply exists_of_any [standingLoop]
    decide +kernel
  · rintro ⟨xs, hxs⟩
    exact absurd (hxs.step_pos (by decide) (by decide)) (by decide)

end Program

end Blockwork
