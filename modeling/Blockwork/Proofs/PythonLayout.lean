import Blockwork.Proofs.PythonForms

/-! # Reading the layout of Python sources

A Python source shows by the blanks before its lines which statements lie in which. Here a source is cut into lines,
and the statements are read back from nothing but the blanks, the colons and the words that go on with a statement.
-/

namespace Blockwork

set_option autoImplicit false

open List (mem_cons_self mem_cons_of_mem append_assoc)
open Line (chars)

namespace Python

open Source (Names Opens)

attribute [local simp] layout layoutClauses layoutBody layoutAll

variable {names : Names}

/-! ## Reading lines -/

/-- What has been read of the lines below: a statement, or a clause whose statement begins further up. -/
inductive Item where
  | statement (s : Shape)
  | clause (header : String) (body : List Shape)

def isHeader (text : String) : Bool :=
  text.toList.getLast? = some ':'

def statements? (depth : Nat) : List (Nat × Item) → Option (List Shape)
  | [] => some []
  | (d, .statement s) :: rest => if d = depth then (statements? depth rest).map (s :: ·) else none
  | (_, .clause _ _) :: _ => none

def isPass : List Shape → Bool
  | [.simple text] => text = "pass"
  | _ => false

def takeClauses (depth : Nat) : List (Nat × Item) → List (String × List Shape) × List (Nat × Item)
  | (d, .clause header body) :: rest =>
    if d = depth then ((header, body) :: (takeClauses depth rest).1, (takeClauses depth rest).2)
    else ([], (d, .clause header body) :: rest)
  | items => ([], items)

def close (depth : Nat) (header : String) (body : List Shape) (items : List (Nat × Item)) : List (Nat × Item) :=
  if continues header then (depth, .clause header body) :: items
  else (depth, .statement (.compound ((header, body) :: (takeClauses depth items).1))) :: (takeClauses depth items).2

/-- Reads a line before items. Those that are deeper form its body: only a header has one, and all of it is one level
deeper. -/
def readLine? (l : Line) (items : List (Nat × Item)) : Option (List (Nat × Item)) :=
  let inner := items.takeWhile (l.depth < ·.1)
  let outer := items.dropWhile (l.depth < ·.1)
  if isHeader l.text then
    if inner.isEmpty then none
    else (statements? (l.depth + 1) inner).map fun body =>
      close l.depth l.text (if isPass body then [] else body) outer
  else if inner.isEmpty then some ((l.depth, .statement (.simple l.text)) :: outer)
  else none

def readLines? : List Line → Option (List (Nat × Item))
  | [] => some []
  | l :: rest => (readLines? rest).bind (readLine? l)

theorem readLines?_nil : readLines? [] = some [] := rfl

/-! ## Reading forms back -/

variable {text : String} {body : List Shape} {unit : Nat}

theorem isHeader_of_writes (h : alphabet.Writes text) : isHeader text = false := by
  unfold isHeader
  rw [decide_eq_false_iff_not]
  intro hlast
  rcases Source.Assembled.getLast? h hlast with hplain | hquote
  · exact absurd hplain (by decide)
  · exact absurd hquote (by decide)

theorem IsHeader.isHeader_eq (h : IsHeader text) : isHeader text = true := by
  obtain ⟨inner, -, rfl⟩ := h.writes
  simp [isHeader]

theorem Readable.ne_pass {s : Shape} (h : Readable s) : s ≠ .simple "pass" := by
  rintro rfl
  cases h with
  | simple h => exact h.fresh mem_cons_self

def Settled (depth : Nat) (items : List (Nat × Item)) : Prop :=
  ∀ item, items.head? = some item → item.1 < depth ∨ item.1 = depth ∧ ∃ s, item.2 = .statement s

variable {depth : Nat} {items : List (Nat × Item)} {more : List Line}

theorem Settled.cons (s : Shape) : Settled depth ((depth, .statement s) :: items) := by
  intro item hitem
  cases hitem
  exact .inr ⟨rfl, s, rfl⟩

def Outer (depth : Nat) (items : List (Nat × Item)) : Prop :=
  ∀ item, items.head? = some item → item.1 ≤ depth

theorem Settled.outer (h : Settled depth items) : Outer depth items := by
  intro item hitem
  rcases h item hitem with hlt | ⟨heq, -⟩ <;> omega

theorem Outer.settled (h : Outer depth items) : Settled (depth + 1) items := by
  intro item hitem
  have hle := h item hitem
  exact .inl (by omega)

theorem takeClauses_of_settled (h : Settled depth items) : takeClauses depth items = ([], items) := by
  cases items with
  | nil => rfl
  | cons item rest =>
    obtain ⟨d, item⟩ := item
    cases item with
    | statement s => rfl
    | clause header body =>
      have hne : d ≠ depth := by
        rintro rfl
        rcases h _ rfl with hlt | ⟨-, s, hs⟩
        · exact absurd hlt (by simp)
        · cases hs
      rw [takeClauses, if_neg hne]

def clauseItems (depth : Nat) (clauses : List (String × List Shape)) : List (Nat × Item) :=
  clauses.map fun clause => (depth, .clause clause.1 clause.2)

theorem outer_clauseItems (h : Outer depth items) (clauses : List (String × List Shape)) :
    Outer depth (clauseItems depth clauses ++ items) := by
  cases clauses with
  | nil => exact h
  | cons clause rest =>
    intro item hitem
    cases hitem
    exact Nat.le_refl _

theorem takeClauses_append (h : Settled depth items) (clauses : List (String × List Shape)) :
    takeClauses depth (clauseItems depth clauses ++ items) = (clauses, items) := by
  induction clauses with
  | nil => exact takeClauses_of_settled h
  | cons clause rest ih =>
    have ih' : takeClauses depth (rest.map (fun clause => (depth, Item.clause clause.1 clause.2)) ++ items) =
        (rest, items) := ih
    rw [clauseItems, List.map_cons, List.cons_append, takeClauses, if_pos rfl, ih']

theorem span_deeper {inner : List (Nat × Item)} (hinner : ∀ item ∈ inner, item.1 = depth + 1) (h : Outer depth items) :
    (inner ++ items).takeWhile (depth < ·.1) = inner ∧ (inner ++ items).dropWhile (depth < ·.1) = items := by
  induction inner with
  | nil =>
    cases items with
    | nil => exact ⟨rfl, rfl⟩
    | cons item rest =>
      have hle : ¬depth < item.1 := by
        have hitem := h item rfl
        omega
      simp [hle]
  | cons item inner ih =>
    have hlt : depth < item.1 := by
      have hitem := hinner item mem_cons_self
      omega
    have hrest := ih fun item hitem => hinner item (mem_cons_of_mem _ hitem)
    simp [hlt, hrest]

theorem readLines?_simple (htext : isHeader text = false) (hitems : Outer depth items)
    (hmore : readLines? more = some items) :
    readLines? ({ depth, text } :: more) = some ((depth, .statement (.simple text)) :: items) := by
  obtain ⟨htake, hdrop⟩ := span_deeper (List.forall_mem_nil _) hitems
  rw [List.nil_append] at htake hdrop
  rw [readLines?, hmore, Option.bind_some, readLine?]
  simp [htext, htake, hdrop]

theorem readLines?_header {header : String} {inner : List (Nat × Item)}
    (hheader : isHeader header = true) (hinner : ∀ item ∈ inner, item.1 = depth + 1) (hne : inner ≠ [])
    (hbody : (statements? (depth + 1) inner).map (fun shapes => if isPass shapes then [] else shapes) = some body)
    (hitems : Outer depth items) (hmore : readLines? more = some (inner ++ items)) :
    readLines? ({ depth, text := header } :: more) = some (close depth header body items) := by
  obtain ⟨htake, hdrop⟩ := span_deeper hinner hitems
  obtain ⟨shapes, hshapes, rfl⟩ := Option.map_eq_some_iff.mp hbody
  rw [readLines?, hmore, Option.bind_some, readLine?]
  simp [hheader, htake, hdrop, hne, hshapes]

def itemsOf (depth : Nat) (body : List Shape) : List (Nat × Item) :=
  body.map fun s => (depth, .statement s)

theorem statements?_itemsOf (depth : Nat) (body : List Shape) : statements? depth (itemsOf depth body) = some body := by
  induction body with
  | nil => rfl
  | cons s rest ih =>
    have ih' : statements? depth (List.map (fun s => (depth, Item.statement s)) rest) = some rest := ih
    rw [itemsOf, List.map_cons, statements?, if_pos rfl, ih', Option.map_some]

theorem depth_of_mem_itemsOf {item : Nat × Item} (h : item ∈ itemsOf depth body) : item.1 = depth := by
  obtain ⟨s, -, rfl⟩ := List.mem_map.mp h
  rfl

def Reads (s : Shape) : Prop :=
  ∀ {depth : Nat} {items : List (Nat × Item)} {more : List Line}, Settled depth items → readLines? more = some items →
    readLines? (layout depth s ++ more) = some ((depth, .statement s) :: items)

theorem readLines?_layoutAll (hbody : ∀ s ∈ body, Reads s) (hitems : Settled depth items)
    (hmore : readLines? more = some items) :
    readLines? (layoutAll depth body ++ more) = some (itemsOf depth body ++ items) := by
  induction body with
  | nil => exact hmore
  | cons s rest ih =>
    have hrest := ih fun s hs => hbody s (mem_cons_of_mem _ hs)
    have hsettled : Settled depth (itemsOf depth rest ++ items) := by
      cases rest with
      | nil => exact hitems
      | cons r rest => exact Settled.cons r
    rw [layoutAll, append_assoc]
    exact hbody s mem_cons_self hsettled hrest

theorem isPass_of_readable (h : ∀ s ∈ body, Readable s) : isPass body = false := by
  cases hpass : isPass body with
  | false => rfl
  | true =>
    unfold isPass at hpass
    split at hpass
    · next text =>
      rw [of_decide_eq_true hpass] at h
      exact absurd rfl (h _ mem_cons_self).ne_pass
    · cases hpass

theorem readLines?_clause {header : String} (hheader : IsHeader header)
    (hreadable : ∀ s ∈ body, Readable s) (hbody : ∀ s ∈ body, Reads s) (hitems : Outer depth items)
    (hmore : readLines? more = some items) :
    readLines? ({ depth, text := header } :: (layoutBody (depth + 1) body ++ more)) =
      some (close depth header body items) := by
  cases body with
  | nil =>
    have hpass : isHeader "pass" = false := by decide
    have hinner : readLines? ({ depth := depth + 1, text := "pass" } :: more) =
        some ([(depth + 1, .statement (.simple "pass"))] ++ items) :=
      readLines?_simple hpass hitems.settled.outer hmore
    exact readLines?_header hheader.isHeader_eq (by simp) (by simp) (by simp [statements?, isPass]) hitems hinner
  | cons s rest =>
    have hinner := readLines?_layoutAll hbody hitems.settled hmore
    rw [layoutBody_of_ne_nil _ (List.cons_ne_nil s rest)]
    refine readLines?_header hheader.isHeader_eq (fun item hitem => depth_of_mem_itemsOf hitem) ?_ ?_ hitems hinner
    · simp [itemsOf]
    · rw [statements?_itemsOf, Option.map_some, isPass_of_readable hreadable]
      rfl

theorem readLines?_layoutClauses {clauses : List (String × List Shape)}
    (hclauses : ∀ clause ∈ clauses, IsHeader clause.1 ∧ continues clause.1 = true)
    (hreadable : ∀ clause ∈ clauses, ∀ s ∈ clause.2, Readable s) (hbodies : ∀ clause ∈ clauses, ∀ s ∈ clause.2, Reads s)
    (hitems : Settled depth items) (hmore : readLines? more = some items) :
    readLines? (layoutClauses depth clauses ++ more) = some (clauseItems depth clauses ++ items) := by
  induction clauses with
  | nil => exact hmore
  | cons clause rest ih =>
    obtain ⟨header, body⟩ := clause
    obtain ⟨hheader, hcontinues⟩ := hclauses _ mem_cons_self
    have hrest := ih (fun clause h => hclauses clause (mem_cons_of_mem _ h))
      (fun clause h => hreadable clause (mem_cons_of_mem _ h))
      (fun clause h => hbodies clause (mem_cons_of_mem _ h))
    have hclause := readLines?_clause hheader (hreadable _ mem_cons_self) (hbodies _ mem_cons_self)
      (outer_clauseItems hitems.outer rest) hrest
    rw [layoutClauses, List.cons_append, append_assoc, hclause, close, if_pos hcontinues]
    rfl

theorem reads_of_readable {s : Shape} (h : Readable s) : Reads s := by
  induction h with
  | simple h =>
    intro depth items more hitems hmore
    rw [layout]
    exact readLines?_simple (isHeader_of_writes h.writes) hitems.outer hmore
  | @compound header body rest hheader hfirst hrest hbody hbodies ih ih' =>
    intro depth items more hitems hmore
    have hclauses := readLines?_layoutClauses hrest hbodies ih' hitems hmore
    have hread := readLines?_clause hheader hbody ih (outer_clauseItems hitems.outer rest) hclauses
    rw [layout, layoutClauses, List.cons_append, append_assoc, hread, close, hfirst, takeClauses_append hitems]
    rfl

/-! ## Reading texts -/

def lineOf? (unit : Nat) (cs : List Char) : Option Line :=
  let blanks := (cs.takeWhile (· = ' ')).length
  if blanks % unit = 0 then some { depth := blanks / unit, text := String.ofList (cs.dropWhile (· = ' ')) } else none

def readStack? (unit : Nat) (stack : List (List Char)) : Option (List Shape) := do
  let lines ← stack.mapM (lineOf? unit)
  let items ← readLines? lines
  statements? 0 items

def withLineFeeds : List Char → List Char
  | [] => []
  | '\r' :: '\n' :: cs => '\n' :: withLineFeeds cs
  | c :: cs => (if c = '\r' then '\n' else c) :: withLineFeeds cs

def stacksOf (text : String) : List (List (List Char)) :=
  (((withLineFeeds text.toList).splitOn '\n').splitOnP List.isEmpty).filter fun stack => !stack.isEmpty

def readStacks? (unit : Nat) (text : String) : Option (List (List Shape)) :=
  (stacksOf text).mapM (readStack? unit)

theorem withLineFeeds_of_notMem {cs : List Char} (h : '\r' ∉ cs) : withLineFeeds cs = cs := by
  fun_induction withLineFeeds cs with
  | case1 => rfl
  | case2 => simp at h
  | case3 c cs _ ih =>
    have hc : c ≠ '\r' := fun heq => h (heq ▸ mem_cons_self)
    rw [if_neg hc, ih fun hmem => h (mem_cons_of_mem _ hmem)]

theorem lineOf?_chars (hunit : 1 ≤ unit) {l : Line} (h : Opens l.text) : lineOf? unit (chars unit l) = some l := by
  obtain ⟨c, cs, hcs, hc⟩ := Source.opens_iff.mp h
  have hblanks : ∀ d ∈ List.replicate (unit * l.depth) ' ', decide (d = ' ') = true := by
    intro d hd
    exact decide_eq_true (List.eq_of_mem_replicate hd)
  have htake : (chars unit l).takeWhile (· = ' ') = List.replicate (unit * l.depth) ' ' := by
    rw [chars, List.takeWhile_append_of_pos hblanks, hcs]
    simp [hc]
  have hdrop : (chars unit l).dropWhile (· = ' ') = l.text.toList := by
    rw [chars, List.dropWhile_append_of_pos hblanks, hcs]
    simp [hc]
  rw [lineOf?, htake, hdrop]
  simp [Nat.mul_div_cancel_left l.depth hunit]

theorem mapM_map_some {α β γ : Type} {f : α → β} {g : β → Option γ} {k : α → γ} {xs : List α}
    (h : ∀ x ∈ xs, g (f x) = some (k x)) : (xs.map f).mapM g = some (xs.map k) := by
  induction xs with
  | nil => rfl
  | cons x xs ih =>
    rw [List.map_cons, List.mapM_cons, h x mem_cons_self, ih fun y hy => h y (mem_cons_of_mem _ hy)]
    rfl

theorem readStack?_chars (hunit : 1 ≤ unit) {lines : List Line} (hlines : ∀ l ∈ lines, Opens l.text)
    (h : readLines? lines = some (itemsOf 0 body)) :
    readStack? unit (lines.map (chars unit)) = some body := by
  have hchars : (lines.map (chars unit)).mapM (lineOf? unit) = some (lines.map id) :=
    mapM_map_some fun l hl => lineOf?_chars hunit (hlines l hl)
  rw [List.map_id] at hchars
  rw [readStack?, hchars]
  simp [h, statements?_itemsOf]

theorem splitOnP_intercalate {groups : List (List Line)} (hgroups : ∀ lines ∈ groups, lines ≠ [])
    (hopens : ∀ lines ∈ groups, ∀ l ∈ lines, Opens l.text) :
    ((([Line.blank].intercalate groups).map (chars unit) ++ [[]]).splitOnP List.isEmpty).filter
      (fun stack => !stack.isEmpty) = groups.map (List.map (chars unit)) := by
  have hcut : ∀ lines ∈ groups, ∀ rest, (lines.map (chars unit) ++ [] :: rest).splitOnP List.isEmpty =
      lines.map (chars unit) :: rest.splitOnP List.isEmpty := by
    intro lines hlines rest
    refine List.splitOnP_append_cons_of_forall_mem ?_ _ rfl rest
    intro cs hcs
    obtain ⟨l, hl, rfl⟩ := List.mem_map.mp hcs
    obtain ⟨c, cs, htext, -⟩ := Source.opens_iff.mp (hopens lines hlines l hl)
    simp [chars, htext]
  have hkeep : ∀ lines ∈ groups, (!(lines.map (chars unit)).isEmpty) = true := by
    intro lines hlines
    simpa using hgroups lines hlines
  induction groups with
  | nil => rfl
  | cons lines rest ih =>
    have hfirst := hkeep lines mem_cons_self
    cases rest with
    | nil =>
      rw [List.intercalate_singleton, hcut lines mem_cons_self, List.filter_cons, if_pos hfirst]
      rfl
    | cons lines' rest =>
      have htail := ih (fun lines h => hgroups lines (mem_cons_of_mem _ h))
        (fun lines h => hopens lines (mem_cons_of_mem _ h)) (fun lines h => hcut lines (mem_cons_of_mem _ h))
        (fun lines h => hkeep lines (mem_cons_of_mem _ h))
      have hblank : chars unit Line.blank = [] := by simp [chars, Line.blank]
      rw [List.intercalate_cons_cons, List.map_append, List.map_append, List.map_singleton, hblank, append_assoc,
        append_assoc, List.singleton_append, hcut lines mem_cons_self, List.filter_cons, if_pos hfirst, htail]
      rfl

theorem stacksOf_intercalate {groups : List (List Line)} (hgroups : ∀ lines ∈ groups, lines ≠ [])
    (hopens : ∀ lines ∈ groups, ∀ l ∈ lines, Opens l.text)
    (hbreaks : ∀ lines ∈ groups, ∀ l ∈ lines, ∀ c ∈ l.text.toList, c ≠ '\n' ∧ c ≠ '\r') :
    stacksOf ("\n".intercalate (groups.map (Line.render unit))) = groups.map (List.map (chars unit)) := by
  have hfree : ∀ l ∈ [Line.blank].intercalate groups, ∀ c ∈ l.text.toList, c ≠ '\n' ∧ c ≠ '\r' := by
    intro l hl
    rcases Line.mem_intercalate hl with rfl | ⟨lines, hlines, hl⟩
    · simp [Line.blank]
    · exact hbreaks lines hlines l hl
  have hreturn : '\r' ∉ (Line.render unit ([Line.blank].intercalate groups)).toList :=
    Line.notMem_render (by decide) fun l hl hmem => (hfree l hl _ hmem).2 rfl
  have hsplit : ((Line.render unit ([Line.blank].intercalate groups)).toList ++ []).splitOn '\n' = _ :=
    Line.splitOn_render (fun l hl hmem => (hfree l hl _ hmem).1 rfl) []
  rw [List.append_nil, List.splitOn_nil] at hsplit
  rw [stacksOf, Line.intercalate_render, withLineFeeds_of_notMem hreturn, hsplit, splitOnP_intercalate hgroups hopens]

theorem reads_rootShapes (hnames : ∀ name, Source.IsIdentifier (names.get name)) {root : Root} (h : root.Writable) :
    readLines? (rootLayout names root) = some (itemsOf 0 (rootShapes names root)) := by
  have hempty : Settled 0 ([] : List (Nat × Item)) := by
    intro item hitem
    cases hitem
  cases root with
  | statements body =>
    have hreads : ∀ t ∈ shapes names body, Reads t := fun t ht =>
      reads_of_readable (readable_shapes (fun s hs => readable_shape hnames s (h.everywhere hs)) t ht)
    have hread := readLines?_layoutAll hreads hempty readLines?_nil
    rwa [List.append_nil, List.append_nil] at hread
  | value e =>
    have hwrites := writes_expr hnames e (h.exprs e e.mem_parts_self)
    exact readLines?_simple (isHeader_of_writes hwrites) hempty.outer readLines?_nil

end Python

namespace Program

open Python Source

variable {blocks : List Block} {allowFloating : Bool} {p : Program}

/-- Without comments, the source of an accepted program holds the statements of its roots: after the prelude, each
root is a stack of lines, and reading the lines by their blanks gives the forms of its statements, one inside the
other. No line of them is broken or begins with a blank of its own. -/
theorem readStacks?_python (h : ofBlocks blocks allowFloating = .ok p)
    (hcomments : ∀ s ∈ p.roots.flatMap Root.stmts, s.attrs.comment = none) (options : Options)
    (hindent : 1 ≤ options.indent) :
    let roots := activeRoots options p
    let names := Names.assign Python.reserved (variablesOf roots)
    (∃ text, Python.source options p = Python.prelude options roots ++ text ∧
      Python.readStacks? options.indent text = some (roots.map (Python.rootShapes names))) ∧
    ∀ root ∈ roots, ∀ l ∈ Python.rootLines names root,
      Opens l.text ∧ ∀ c ∈ l.text.toList, c ≠ '\n' ∧ c ≠ '\r' := by
  intro roots names
  have hnames : ∀ name, IsIdentifier (names.get name) := Names.isIdentifier_get _ _
  have hmem : ∀ root ∈ roots, root ∈ p.roots := fun root hroot => List.mem_of_mem_filter hroot
  have hroots : ∀ root ∈ roots, root.Writable := fun root hroot => writableRoot_of_ofBlocks h (hmem root hroot)
  have hlines : ∀ root ∈ roots, rootLines names root = rootLayout names root := by
    intro root hroot
    have hwoven : Line.Woven "#" (rootLines names root) (rootLayout names root) _ := woven_rootLines (hroots root hroot)
    have hnone : root.comments = [] := by
      refine List.flatMap_eq_nil_iff.mpr fun s hs => ?_
      rw [hcomments s (List.mem_flatMap.mpr ⟨root, hmem root hroot, hs⟩)]
      rfl
    rw [hnone] at hwoven
    exact hwoven.eq_of_nil
  have hcode : ∀ root ∈ roots, ∀ l ∈ rootLines names root, IsCode l.text := fun root hroot =>
    hlines root hroot ▸ isCode_rootLayout hnames (hroots root hroot)
  have hread : ∀ root ∈ roots, readStack? options.indent ((rootLines names root).map (Line.chars options.indent)) =
      some (rootShapes names root) := by
    intro root hroot
    refine readStack?_chars hindent (fun l hl => (hcode root hroot l hl).opens) ?_
    rw [hlines root hroot]
    exact reads_rootShapes hnames (hroots root hroot)
  have hgroups : ∀ lines ∈ roots.map (rootLines names), lines ≠ [] := by
    intro lines hmem hnil
    obtain ⟨root, hroot, rfl⟩ := List.mem_map.mp hmem
    have hitems := reads_rootShapes hnames (hroots root hroot)
    rw [← hlines root hroot, hnil] at hitems
    exact rootShapes_ne_nil (hroots root hroot) (List.map_eq_nil_iff.mp (Option.some.inj hitems).symm)
  have hcut : stacksOf ("\n".intercalate ((roots.map (rootLines names)).map (Line.render options.indent))) = _ :=
    stacksOf_intercalate hgroups
      (List.forall_mem_map.mpr fun root hroot l hl => (hcode root hroot l hl).opens)
      (List.forall_mem_map.mpr fun root hroot l hl => (hcode root hroot l hl).unbroken)
  rw [List.map_map, List.map_map] at hcut
  refine ⟨⟨_, rfl, ?_⟩, fun root hroot l hl => ⟨(hcode root hroot l hl).opens, (hcode root hroot l hl).unbroken⟩⟩
  exact (congrArg (List.mapM (readStack? options.indent)) hcut).trans (mapM_map_some hread)

/-- A choice with an empty loop in one branch and a text of two lines in the other. -/
def branchingBlock : Block :=
  { tag := Tag.choose.name, attrs := { id := "a" }, values := [("IF0", truthBlock "b")],
    statements :=
      [("DO0", { tag := Tag.loop.name, attrs := { id := "c" }, fields := [("MODE", "UNTIL")],
                 values := [("BOOL", truthBlock "d")] }),
       ("ELSE", { tag := Tag.print.name, attrs := { id := "e" },
                  values := [("TEXT", { tag := Tag.text.name, attrs := { id := "f" },
                                        fields := [("TEXT", "a\n  pass")] })] })] }

def branchingProgram : Program :=
  { roots := [.statements
      [.choose [(.boolean true { id := "b" }, [.loop .until (.boolean true { id := "d" }) [] { id := "c" }])]
        (some [.print (.text "a\n  pass" { id := "f" }) { id := "e" }]) { id := "a" }]] }

theorem readStacks?_python_branching :
    ofBlocks [branchingBlock] false = .ok branchingProgram ∧
    Python.source {} branchingProgram =
      "if True:\n    while not (True):\n        pass\nelse:\n    print(\"a\\n  pass\")\n" ∧
    Python.readStacks? 4 (Python.source {} branchingProgram) =
      some [[.compound [("if True:", [.compound [("while not (True):", [])]]),
        ("else:", [.simple "print(\"a\\n  pass\")"])]]] := by
  have haccepted : ofBlocks [branchingBlock] false = .ok branchingProgram := by cbv
  have hcomments : ∀ s ∈ branchingProgram.roots.flatMap Root.stmts, s.attrs.comment = none := by
    have hall : (branchingProgram.roots.flatMap Root.stmts).all (fun s => s.attrs.comment.isNone) = true := by cbv
    intro s hs
    exact Option.isNone_iff_eq_none.mp (List.all_eq_true.mp hall s hs)
  have hprelude : Python.prelude {} (activeRoots {} branchingProgram) = "" := by cbv
  obtain ⟨⟨text, hsource, hread⟩, -⟩ := readStacks?_python haccepted hcomments {} (by decide)
  rw [hprelude, String.empty_append] at hsource
  refine ⟨haccepted, by cbv, ?_⟩
  rw [hsource, hread]
  cbv

end Program

end Blockwork
