import Blockwork.Proofs.ArduinoBraces
import Blockwork.Proofs.Uncommented

/-! # Comments in sources

What is left of a source without its comments, by the rules of its language, are its lines of code. A comment of a
program does nothing to them where no carriage return gets out of it, and no backslash joins it to the line below.
-/

namespace Blockwork

set_option autoImplicit false

open List (mem_cons forall_mem_cons length_append map_cons map_map)

variable {code lines : List Line} {l : Line} {cs : List Char} {comments : List Comment}

namespace Source

/-- Where a character stands: by itself, in quotes, or behind a backslash in quotes. -/
inductive Quoting where
  | outside
  | inside (quote : Char)
  | escaped (quote : Char)
deriving DecidableEq

def Quoting.next : Quoting → Char → Quoting
  | .outside, c => if c = '\x22' || c = '\x27' then .inside c else .outside
  | .inside quote, c => if c = quote then .outside else if c = '\\' then .escaped quote else .inside quote
  | .escaped quote, _ => .inside quote

/-- What stands on a line before a mark outside quotes. -/
def beforeMark (mark : List Char) (quoting : Quoting) : List Char → List Char
  | [] => []
  | c :: cs =>
    if quoting = .outside && mark.isPrefixOf (c :: cs) then []
    else c :: beforeMark mark (quoting.next c) cs

def hasCode (cs : List Char) : Bool :=
  cs.any fun c => c ∉ [' ', '\t', '\x0c']

/-- The lines of code among lines, without the comments behind them. -/
def codeOf (mark : List Char) (lines : List (List Char)) : List (List Char) :=
  (lines.map (beforeMark mark .outside)).filter hasCode

end Source

/-- The lines of code of a source in Python, whose lines end at line feeds and at carriage returns. -/
def Python.codeLines (text : String) : List (List Char) :=
  Source.codeOf ['#'] ((text.toList.splitOn '\n').flatMap (·.splitOn '\r'))

namespace Arduino

/-- A line that ends in a backslash is joined to the next one. -/
def spliced : List (List Char) → List (List Char)
  | [] => []
  | line :: rest =>
    if line.getLast? = some '\\' then
      match spliced rest with
      | [] => [line]
      | next :: more => (line.dropLast ++ next) :: more
    else line :: spliced rest

def codeLines (text : String) : List (List Char) :=
  Source.codeOf ['/', '/'] (spliced (text.toList.splitOn '\n'))

end Arduino

namespace Source

def codeLines (target : Target) (text : String) : List (List Char) :=
  match target with
  | .python => Python.codeLines text
  | .arduino => Arduino.codeLines text

/-- Nothing of the comment gets out of it. In Python, no code follows a carriage return in it. In a sketch, its last
line does not end in a backslash. -/
def Inert (target : Target) (c : Comment) : Prop :=
  match target with
  | .python => ∀ line ∈ Text.lines c.text, ∀ piece ∈ ((Text.dropBlankEnd line.toList).splitOn '\r').tail,
      hasCode (beforeMark ['#'] .outside piece) = false
  | .arduino => ∀ line ∈ (Text.lines c.text).getLast?, (Text.dropBlankEnd line.toList).getLast? ≠ some '\\'

theorem codeOf_append (mark : List Char) (lines lines' : List (List Char)) :
    codeOf mark (lines ++ lines') = codeOf mark lines ++ codeOf mark lines' := by
  simp [codeOf]

variable {mark : List Char}

theorem beforeMark_blanks (hmark : ∀ rest, mark.isPrefixOf (' ' :: rest) = false) (n : Nat) (cs : List Char) :
    beforeMark mark .outside (List.replicate n ' ' ++ cs) = List.replicate n ' ' ++ beforeMark mark .outside cs := by
  induction n with
  | zero => rfl
  | succ n ih => simp [List.replicate_succ, beforeMark, hmark, Quoting.next, ih]

theorem codeOf_remark (hmark : ∀ rest, mark.isPrefixOf (' ' :: rest) = false) (n : Nat) (text : List Char)
    (lines : List (List Char)) :
    codeOf mark ((List.replicate n ' ' ++ (mark ++ text)) :: lines) = codeOf mark lines := by
  have hbefore : beforeMark mark .outside (mark ++ text) = [] := by
    cases mark with
    | nil => cases hmark []
    | cons c mark => simp [beforeMark]
  have hnone : hasCode (List.replicate n ' ') = false := by simp [hasCode]
  simp [codeOf, beforeMark_blanks hmark, hbefore, hnone]

end Source

open Source

/-! ## Lines of comments -/

namespace Text

theorem mem_of_mem_splitAt {sep : Char} {piece : List Char} (h : piece ∈ splitAt sep cs) :
    ∀ c ∈ piece, c ∈ cs ∧ c ≠ sep := by
  induction cs generalizing piece with
  | nil => simp_all [splitAt]
  | cons d cs ih =>
    have hcons : ∀ {piece}, piece ∈ splitAt sep cs → ∀ c ∈ piece, c ∈ d :: cs ∧ c ≠ sep := fun hpiece c hc =>
      ⟨List.mem_cons_of_mem d (ih hpiece c hc).1, (ih hpiece c hc).2⟩
    rw [splitAt] at h
    split at h
    · rcases mem_cons.mp h with rfl | h
      · exact List.forall_mem_nil _
      · exact hcons h
    · next hd =>
      cases hrest : splitAt sep cs with
      | nil => simp_all
      | cons first others =>
        rw [hrest] at h hcons
        rcases mem_cons.mp h with rfl | h
        · exact forall_mem_cons.mpr ⟨⟨List.mem_cons_self, hd⟩, hcons List.mem_cons_self⟩
        · exact hcons (List.mem_cons_of_mem _ h)

theorem exists_of_mem_linesOfPieces {pieces : List (List Char)} {line : List Char} (h : line ∈ linesOfPieces pieces) :
    ∃ piece ∈ pieces, line ⊆ piece := by
  fun_induction linesOfPieces pieces with
  | case1 => cases h
  | case2 => cases h
  | case3 last => exact ⟨line, h, List.Subset.refl _⟩
  | case4 piece pieces _ ih =>
    rcases mem_cons.mp h with rfl | h
    · refine ⟨piece, List.mem_cons_self, ?_⟩
      unfold dropReturn
      split
      · exact List.dropLast_subset piece
      · exact List.Subset.refl _
    · obtain ⟨piece, hpiece, hsubset⟩ := ih h
      exact ⟨piece, List.mem_cons_of_mem _ hpiece, hsubset⟩

theorem mem_of_mem_lines {s line : String} (h : line ∈ Text.lines s) : ∀ c ∈ line.toList, c ∈ s.toList ∧ c ≠ '\n' := by
  obtain ⟨cs, hcs, rfl⟩ := List.mem_map.mp h
  obtain ⟨piece, hpiece, hsubset⟩ := exists_of_mem_linesOfPieces hcs
  intro c hc
  rw [String.toList_ofList] at hc
  exact mem_of_mem_splitAt hpiece c (hsubset hc)

theorem dropBlankEnd_eq_nil : dropBlankEnd cs = [] ↔ ∀ c ∈ cs, isBlank c = true :=
  List.rdropWhile_eq_nil_iff

theorem isBlank_of_strip_eq_nil (h : strip cs = []) : ∀ c ∈ cs, isBlank c = true := by
  have hblank := dropBlankEnd_eq_nil.mp h
  rw [← List.dropWhile_eq_nil_iff]
  by_contra hne
  have hhead := List.head_dropWhile_not isBlank hne
  rw [hblank _ (List.head_mem hne)] at hhead
  cases hhead

end Text

namespace Line

variable {mark : String} {depth unit : Nat} {c : Comment}

theorem remarks_cases (mark : String) (depth : Nat) (c : Comment) :
    (remarks mark depth (some c) = [] ∧ ∀ line ∈ Text.lines c.text, Text.dropBlankEnd line.toList = []) ∨
    remarks mark depth (some c) = (Text.lines c.text).map fun line =>
      { depth, text := mark ++ " " ++ String.ofList (Text.dropBlankEnd line.toList) } := by
  rw [remarks]
  split
  · next hblank =>
    refine .inl ⟨rfl, fun line hline => Text.dropBlankEnd_eq_nil.mpr fun d hd => ?_⟩
    exact Text.isBlank_of_strip_eq_nil (List.isEmpty_iff.mp hblank) d (Text.mem_of_mem_lines hline d hd).1
  · exact .inr rfl

theorem notMem_remarks (hmark : '\n' ∉ mark.toList) : ∀ l ∈ remarks mark depth (some c), '\n' ∉ l.text.toList := by
  rcases remarks_cases mark depth c with ⟨hnil, -⟩ | heq
  · rw [hnil]
    exact List.forall_mem_nil _
  · rw [heq]
    refine List.forall_mem_map.mpr fun line hline hmem => ?_
    have hdropped : '\n' ∉ Text.dropBlankEnd line.toList := fun hmem =>
      (Text.mem_of_mem_lines hline _ ((List.rdropWhile_prefix _ _).subset hmem)).2 rfl
    simp_all

theorem Woven.notMem (h : Woven mark lines code comments) (hmark : '\n' ∉ mark.toList)
    (hcode : ∀ l ∈ code, '\n' ∉ l.text.toList) : ∀ l ∈ lines, '\n' ∉ l.text.toList := by
  induction h with
  | nil => exact hcode
  | plain l _ ih =>
    obtain ⟨hl, hcode⟩ := forall_mem_cons.mp hcode
    exact forall_mem_cons.mpr ⟨hl, ih hcode⟩
  | remarked c l _ _ ih =>
    obtain ⟨hl, hcode⟩ := forall_mem_cons.mp hcode
    exact List.forall_mem_append.mpr ⟨notMem_remarks hmark, forall_mem_cons.mpr ⟨hl, ih hcode⟩⟩

theorem splitOn_source (h : ∀ l ∈ lines, '\n' ∉ l.text.toList) :
    (render unit lines).toList.splitOn '\n' = lines.map (chars unit) ++ [[]] := by
  have hsplit : ((render unit lines).toList ++ []).splitOn '\n' = _ := splitOn_render h []
  rwa [List.append_nil, List.splitOn_nil] at hsplit

theorem chars_remark (text : List Char) : chars unit { depth, text := mark ++ " " ++ String.ofList text } =
    List.replicate (unit * depth) ' ' ++ (mark.toList ++ ' ' :: text) := by
  simp [chars]

end Line

/-! ## Lines of Python -/

namespace Python

variable {unit : Nat}

def codeOfLine (unit : Nat) (l : Line) : List (List Char) :=
  codeOf ['#'] ((l.chars unit).splitOn '\r')

theorem codeLines_render (h : ∀ l ∈ lines, '\n' ∉ l.text.toList) :
    codeLines (Line.render unit lines) = lines.flatMap (codeOfLine unit) := by
  rw [codeLines, Line.splitOn_source h, List.flatMap_append, codeOf_append, List.flatMap_map]
  have hempty : codeOf ['#'] ([[]].flatMap (·.splitOn '\r')) = [] := by decide
  rw [hempty, List.append_nil, codeOf, List.map_flatMap, List.filter_flatMap]
  rfl

theorem codeOfLine_remark (depth : Nat) (text : List Char) :
    codeOfLine unit { depth, text := "#" ++ " " ++ String.ofList text } = codeOf ['#'] (text.splitOn '\r').tail := by
  have hsplit : ∀ {cs : List Char}, '\r' ∉ cs →
      (cs ++ text).splitOn '\r' = (text.splitOn '\r').modifyHead (cs ++ ·) := by
    intro cs hcs
    induction cs with
    | nil => exact (congrFun List.modifyHead_id _).symm
    | cons c cs ih =>
      obtain ⟨hc, hcs⟩ := not_or.mp (mt mem_cons.mpr hcs)
      rw [List.cons_append, List.splitOn_cons_eq_if_modifyHead, if_neg (by simpa using Ne.symm hc), ih hcs]
      simp [Function.comp_def]
  have hchars : Line.chars unit { depth, text := "#" ++ " " ++ String.ofList text } =
      List.replicate (unit * depth) ' ' ++ (['#'] ++ [' ']) ++ text := by simp [Line.chars]
  rw [codeOfLine, hchars, hsplit (by simp)]
  cases htext : text.splitOn '\r' with
  | nil => exact absurd htext (List.splitOn_ne_nil _ _)
  | cons first others =>
    rw [List.modifyHead_cons, List.append_assoc, List.append_assoc]
    exact codeOf_remark (fun _ => rfl) _ _ _

theorem codeOf_remarks_eq_nil_iff (unit depth : Nat) (c : Comment) :
    (Line.remarks "#" depth (some c)).flatMap (codeOfLine unit) = [] ↔ Inert .python c := by
  rcases Line.remarks_cases "#" depth c with ⟨hnil, hblank⟩ | heq
  · rw [hnil]
    refine iff_of_true rfl fun line hline piece hpiece => ?_
    rw [hblank line hline] at hpiece
    cases hpiece
  · rw [heq, List.flatMap_map]
    simp only [codeOfLine_remark, codeOf, List.flatMap_eq_nil_iff, List.filter_eq_nil_iff, List.forall_mem_map,
      Bool.not_eq_true]
    rfl

theorem sublist_of_woven (unit : Nat) (h : Line.Woven "#" lines code comments) :
    (code.flatMap (codeOfLine unit)).Sublist (lines.flatMap (codeOfLine unit)) ∧
      ((lines.flatMap (codeOfLine unit)).length = (code.flatMap (codeOfLine unit)).length ↔
        ∀ c ∈ comments, Inert .python c) := by
  induction h with
  | nil => simp
  | plain l _ ih =>
    simp only [List.flatMap_cons, length_append, Nat.add_left_cancel_iff]
    exact ⟨ih.1.append_left _, ih.2⟩
  | @remarked c l _ lines code comments _ ih =>
    have hc := codeOf_remarks_eq_nil_iff unit l.depth c
    have hle := ih.1.length_le
    simp only [List.flatMap_append, List.flatMap_cons, length_append, forall_mem_cons, ← ih.2, ← hc,
      ← List.length_eq_zero_iff]
    refine ⟨(ih.1.append_left _).trans (List.sublist_append_right _ _), ?_⟩
    omega

end Python

/-! ## Lines of sketches -/

namespace Arduino

variable {unit : Nat} {P : String → Prop}

theorem getLast?_chars (h : IsCode P l) : (l.chars unit).getLast? ≠ some '\\' := by
  obtain ⟨kind, hline, -⟩ := h
  rw [Line.chars, List.getLast?_append]
  intro hlast
  rcases Option.or_eq_some_iff.mp hlast with hlast | ⟨-, hlast⟩
  · exact (Assembled.getLast? hline.writes hlast).elim (by decide) (by decide)
  · exact absurd (List.eq_of_mem_replicate (List.mem_of_getLast? hlast)) (by decide)

theorem first_of_assembled {c : Char} (h : Assembled alphabet (c :: cs)) :
    ['/', '/'].isPrefixOf (c :: cs) = false ∧ c ≠ '\t' ∧ c ≠ '\x0c' := by
  generalize hall : c :: cs = all at h ⊢
  cases h with
  | nil => cases hall
  | plain hplain =>
    cases hall
    have hothers : ∀ d ∈ ['/', '\t', '\x0c'], c ≠ d := by
      rintro d hd rfl
      simp only [mem_cons, List.not_mem_nil, or_false] at hd
      rcases hd with rfl | rfl | rfl <;> exact absurd hplain (by decide +kernel)
    have hslash : '/' ≠ c := Ne.symm (hothers _ (by simp))
    exact ⟨by simp [List.isPrefixOf, hslash], hothers _ (by simp), hothers _ (by simp)⟩
  | slash =>
    cases hall
    simp [List.isPrefixOf]
  | quoted value =>
    rw [toList_quote] at hall ⊢
    simp [(List.cons.inj hall).1, List.isPrefixOf]

theorem length_codeOf_chars (h : IsCode P l) (hne : l.text ≠ "") : (codeOf ['/', '/'] [l.chars unit]).length = 1 := by
  obtain ⟨kind, hline, -⟩ := h
  obtain ⟨c, cs, hcs⟩ := List.exists_cons_of_ne_nil (mt String.toList_eq_nil_iff.mp hne)
  have hwrites := hline.writes
  rw [Alphabet.Writes, hcs] at hwrites
  obtain ⟨hmark, htab, hfeed⟩ := first_of_assembled hwrites
  have hblank : c ≠ ' ' := fun heq => hline.head (by rw [hcs, heq]; rfl)
  have hcode : hasCode (beforeMark ['/', '/'] .outside (l.chars unit)) = true := by
    rw [Line.chars, beforeMark_blanks (fun _ => rfl), hcs, beforeMark, hmark, Bool.and_false,
      if_neg Bool.false_ne_true]
    simp [hasCode, hblank, htab, hfeed]
  simp [codeOf, hcode]

/-- A line of a comment is none of code, with the next line behind it or without. -/
theorem spliced_remark (n : Nat) (text : List Char) (rest : List (List Char)) :
    let remark := List.replicate n ' ' ++ (['/', '/'] ++ ' ' :: text)
    codeOf ['/', '/'] (spliced (remark :: rest)).tail = codeOf ['/', '/'] (spliced (remark :: rest)) ∧
      (spliced (remark :: rest)).tail =
        if text.getLast? = some '\\' then (spliced rest).tail else spliced rest := by
  intro remark
  have hlast : remark.getLast? = some '\\' ↔ text.getLast? = some '\\' := by
    cases text with
    | nil => simp [remark]
    | cons c text => simp [remark]
  have hlost : ∀ next, codeOf ['/', '/'] ((remark.dropLast ++ next) :: (spliced rest).tail) =
      codeOf ['/', '/'] (spliced rest).tail := by
    intro next
    have hdrop : remark.dropLast ++ next =
        List.replicate n ' ' ++ (['/', '/'] ++ ((' ' :: text).dropLast ++ next)) := by
      simp [remark]
    rw [hdrop]
    exact codeOf_remark (fun _ => rfl) _ _ _
  by_cases hends : remark.getLast? = some '\\'
  · rw [spliced, if_pos hends, if_pos (hlast.mp hends)]
    cases hrest : spliced rest with
    | nil => exact ⟨(codeOf_remark (fun _ => rfl) _ _ _).symm, rfl⟩
    | cons next more =>
      rw [hrest] at hlost
      exact ⟨(hlost next).symm, rfl⟩
  · rw [spliced, if_neg hends, if_neg (mt hlast.mpr hends)]
    exact ⟨(codeOf_remark (fun _ => rfl) _ _ _).symm, rfl⟩

/-- The line after a comment is lost where the comment ends in a backslash. -/
theorem codeOf_spliced_remarks (n : Nat) (texts : List (List Char)) {line : List Char}
    (h : line.getLast? ≠ some '\\') (rest : List (List Char)) :
    codeOf ['/', '/'] (spliced
      (texts.map (fun text => List.replicate n ' ' ++ (['/', '/'] ++ ' ' :: text)) ++ line :: rest)) =
      codeOf ['/', '/']
        (if texts.getLast?.any (·.getLast? = some '\\') then spliced rest else line :: spliced rest) := by
  have hline : spliced (line :: rest) = line :: spliced rest := by rw [spliced, if_neg h]
  induction texts with
  | nil => rw [List.map_nil, List.nil_append, hline]; rfl
  | cons text texts ih =>
    obtain ⟨hcode, htail⟩ := spliced_remark n text
      (texts.map (fun text => List.replicate n ' ' ++ (['/', '/'] ++ ' ' :: text)) ++ line :: rest)
    rw [map_cons, List.cons_append, ← hcode, htail]
    cases texts with
    | nil => simp [hline]
    | cons text' texts =>
      rw [List.getLast?_cons_cons, ← ih]
      split
      · exact (spliced_remark n text' _).1
      · rfl

def codeOfLines (unit : Nat) (lines : List Line) : List (List Char) :=
  codeOf ['/', '/'] (spliced (lines.map (Line.chars unit) ++ [[]]))

theorem codeOfLines_cons (h : IsCode P l) (lines : List Line) :
    codeOfLines unit (l :: lines) = codeOf ['/', '/'] [l.chars unit] ++ codeOfLines unit lines := by
  rw [codeOfLines, map_cons, List.cons_append, spliced, if_neg (getLast?_chars h)]
  exact codeOf_append _ [_] _

theorem codeOfLines_remarks (unit : Nat) (h : IsCode P l) (c : Comment) (lines : List Line) :
    (Inert .arduino c ∧
      codeOfLines unit (Line.remarks "//" l.depth (some c) ++ l :: lines) = codeOfLines unit (l :: lines)) ∨
    (¬ Inert .arduino c ∧
      codeOfLines unit (Line.remarks "//" l.depth (some c) ++ l :: lines) = codeOfLines unit lines) := by
  rcases Line.remarks_cases "//" l.depth c with ⟨hnil, hblank⟩ | heq
  · rw [hnil]
    refine .inl ⟨fun line hline => ?_, rfl⟩
    rw [hblank line (List.mem_of_getLast? hline)]
    simp
  · obtain ⟨texts, htexts⟩ : ∃ texts, texts = (Text.lines c.text).map fun line => Text.dropBlankEnd line.toList :=
      ⟨_, rfl⟩
    have hinert : Inert .arduino c ↔ texts.getLast?.any (·.getLast? = some '\\') = false := by
      rw [Inert, htexts, List.getLast?_map]
      cases (Text.lines c.text).getLast? with
      | none => simp
      | some line => simp
    have hremarks : (Line.remarks "//" l.depth (some c)).map (Line.chars unit) =
        texts.map fun text => List.replicate (unit * l.depth) ' ' ++ (['/', '/'] ++ ' ' :: text) := by
      rw [heq, htexts, map_map, map_map]
      exact List.map_congr_left fun line _ => Line.chars_remark _
    rw [codeOfLines_cons h, codeOfLines, codeOfLines, List.map_append, hremarks, List.append_assoc, map_cons,
      List.cons_append, codeOf_spliced_remarks _ texts (getLast?_chars h), ← codeOf_append]
    cases hflag : texts.getLast?.any (·.getLast? = some '\\') with
    | false => exact .inl ⟨hinert.mpr hflag, rfl⟩
    | true => exact .inr ⟨by simp [hinert, hflag], rfl⟩

theorem sublist_of_woven (unit : Nat) (h : Line.Woven "//" lines code comments) (hcode : ∀ l ∈ code, IsCode P l) :
    (codeOfLines unit lines).Sublist (codeOfLines unit code) ∧
      ((codeOfLines unit lines).length = (codeOfLines unit code).length ↔ ∀ c ∈ comments, Inert .arduino c) := by
  induction h with
  | nil => simp
  | plain l _ ih =>
    obtain ⟨hl, hcode⟩ := forall_mem_cons.mp hcode
    obtain ⟨hsublist, hlength⟩ := ih hcode
    simp only [codeOfLines_cons hl, length_append, Nat.add_left_cancel_iff]
    exact ⟨hsublist.append_left _, hlength⟩
  | @remarked c l hne lines code comments _ ih =>
    obtain ⟨hl, hcode⟩ := forall_mem_cons.mp hcode
    obtain ⟨hsublist, hlength⟩ := ih hcode
    have hle := hsublist.length_le
    rw [forall_mem_cons, ← hlength]
    rcases codeOfLines_remarks unit hl c lines with ⟨hinert, heq⟩ | ⟨hinert, heq⟩
    · rw [heq, codeOfLines_cons hl, codeOfLines_cons hl, length_append, length_append]
      exact ⟨hsublist.append_left _, by simp [hinert]⟩
    · rw [heq, codeOfLines_cons hl, length_append, length_codeOf_chars hl hne]
      refine ⟨hsublist.trans (List.sublist_append_right _ _), ?_⟩
      simp only [hinert, false_and, iff_false]
      omega

theorem codeLines_render (h : ∀ l ∈ lines, '\n' ∉ l.text.toList) :
    codeLines (Line.render unit lines) = codeOfLines unit lines := by
  rw [codeLines, Line.splitOn_source h, codeOfLines]

end Arduino

/-! ## Programs -/

theorem Line.Woven.intercalate {mark : String} {roots : List Root} {lines code : Root → List Line}
    (h : ∀ root ∈ roots, Woven mark (lines root) (code root) root.comments) :
    Woven mark ([blank].intercalate (roots.map lines)) ([blank].intercalate (roots.map code))
      (roots.flatMap Root.comments) := by
  induction roots with
  | nil => exact .nil
  | cons root rest ih =>
    obtain ⟨hroot, hrest⟩ := forall_mem_cons.mp h
    cases rest with
    | nil => simpa [List.intercalate_singleton] using hroot
    | cons other rest =>
      have hjoined := (hroot.append (.refl [blank])).append (ih hrest)
      rw [List.append_nil] at hjoined
      simpa only [map_cons, List.intercalate_cons_cons, List.flatMap_cons] using hjoined

theorem Except.Agree.trans_symm {ε α β γ : Type} {R : α → β → Prop} {S : γ → β → Prop} {x : Except ε α}
    {y : Except ε β} {z : Except ε γ} (hx : Agree R x y) (hz : Agree S z y) :
    Agree (fun a c => ∃ b, R a b ∧ S c b) x z := by
  rcases x with e | a <;> rcases y with e' | b <;> rcases z with e'' | c <;> try contradiction
  · exact Eq.trans hx (Eq.symm hz)
  · exact ⟨b, hx, hz⟩

namespace Python

/-- The lines before those of the roots. -/
def preludeLines (roots : List Root) : List Line :=
  let math := roots.any fun r => r.exprs.any usesMath
  let time := roots.any fun r => r.stmts.any usesTime
  (if math then [{ depth := 0, text := "import math" }] else []) ++
    (if time then [{ depth := 0, text := "import time" }] else []) ++ (if math || time then [Line.blank] else []) ++
    (if roots.any fun r => r.stmts.any usesRange then rangeHelper ++ [Line.blank] else [])

theorem prelude_eq (options : Options) (roots : List Root) :
    prelude options roots = Line.render options.indent (preludeLines roots) := by
  unfold prelude preludeLines
  generalize (roots.any fun r => r.exprs.any usesMath) = math
  generalize (roots.any fun r => r.stmts.any usesTime) = time
  generalize (roots.any fun r => r.stmts.any usesRange) = range
  cases math <;> cases time <;> cases range <;> simp [Line.render, Line.renderOne, Line.blank] <;> rfl

theorem mem_preludeLines_iff {roots : List Root} :
    l ∈ preludeLines roots ↔
      (∃ r ∈ roots, r.exprs.any usesMath) ∧ l = { depth := 0, text := "import math" } ∨
      (∃ r ∈ roots, r.stmts.any usesTime) ∧ l = { depth := 0, text := "import time" } ∨
      ((∃ r ∈ roots, r.exprs.any usesMath) ∨ ∃ r ∈ roots, r.stmts.any usesTime) ∧ l = Line.blank ∨
      (∃ r ∈ roots, r.stmts.any usesRange) ∧ (l ∈ rangeHelper ∨ l = Line.blank) := by
  simp only [preludeLines, ← List.any_eq_true, ← Bool.or_eq_true, List.mem_append, List.mem_ite_nil_right,
    List.mem_singleton, or_assoc]

/-- The lines of a source. -/
def sourceLines (options : Options) (p : Program) : List Line :=
  let roots := activeRoots options p
  preludeLines roots ++ [Line.blank].intercalate (roots.map (rootLines (Target.python.names roots)))

/-- The lines of a source without its comments. -/
def sourceLayout (options : Options) (p : Program) : List Line :=
  let roots := activeRoots options p
  preludeLines roots ++ [Line.blank].intercalate (roots.map (rootLayout (Target.python.names roots)))

theorem source_of_groups (options : Options) (roots : List Root) (groups : List (List Line)) :
    prelude options roots ++ "\n".intercalate (groups.map (Line.render options.indent)) =
      Line.render options.indent (preludeLines roots ++ [Line.blank].intercalate groups) := by
  rw [prelude_eq, Line.intercalate_render]
  simp [Line.render]

theorem source_eq (options : Options) (p : Program) :
    source options p = Line.render options.indent (sourceLines options p) := by
  rw [sourceLines, ← source_of_groups, map_map]
  rfl

variable {options : Options} {p : Program}

theorem woven_sourceLines (h : ∀ root ∈ activeRoots options p, root.Writable) :
    Line.Woven "#" (sourceLines options p) (sourceLayout options p) ((activeRoots options p).flatMap Root.comments) ∧
      ∀ l ∈ sourceLayout options p, '\n' ∉ l.text.toList := by
  refine ⟨(Line.Woven.refl _).append (.intercalate fun root hroot => woven_rootLines (h root hroot)), ?_⟩
  refine List.forall_mem_append.mpr ⟨fun l hl => ?_, fun l hl hmem => ?_⟩
  · have hhelper : ∀ l ∈ rangeHelper, '\n' ∉ l.text.toList := by simp [rangeHelper]
    rcases mem_preludeLines_iff.mp hl with ⟨-, rfl⟩ | ⟨-, rfl⟩ | ⟨-, rfl⟩ | ⟨-, hl | rfl⟩
    · simp
    · simp
    · simp [Line.blank]
    · exact hhelper l hl
    · simp [Line.blank]
  · rcases Line.mem_intercalate hl with rfl | ⟨lines, hlines, hl⟩
    · simp [Line.blank] at hmem
    · obtain ⟨root, hroot, rfl⟩ := List.mem_map.mp hlines
      exact ((isCode_rootLayout (Names.isIdentifier_get _ _) (h root hroot) l hl).unbroken _ hmem).1 rfl

theorem codeLines_source_iff (h : ∀ root ∈ activeRoots options p, root.Writable) :
    codeLines (source options p) = codeLines (source options p.uncommented) ↔
      ∀ c ∈ (activeRoots options p).flatMap Root.comments, Inert .python c := by
  have hbare : ∀ root ∈ activeRoots options p, ∀ names, rootLines names root.uncommented = rootLayout names root := by
    intro root hroot names
    have hwoven : Line.Woven "#" (rootLines names root.uncommented) _ _ := woven_rootLines (h root hroot).uncommented
    rw [Root.comments_uncommented, rootLayout_uncommented] at hwoven
    exact hwoven.eq_of_nil
  have huncommented : source options p.uncommented = Line.render options.indent (sourceLayout options p) := by
    rw [sourceLayout, ← source_of_groups, source, activeRoots_uncommented, names_uncommented, prelude_uncommented,
      map_map, map_map]
    exact congrArg (fun texts => prelude options _ ++ "\n".intercalate texts) (List.map_congr_left fun root hroot =>
      congrArg _ (hbare root hroot _))
  obtain ⟨hwoven, hcode⟩ := woven_sourceLines h
  obtain ⟨hsublist, hlength⟩ := sublist_of_woven options.indent hwoven
  rw [source_eq, huncommented, codeLines_render hcode, codeLines_render (hwoven.notMem (by decide) hcode)]
  exact ⟨fun heq => hlength.mp (congrArg _ heq), fun hinert => (hsublist.eq_of_length (hlength.mpr hinert).symm).symm⟩

end Python

theorem Arduino.notMem_of_isCode {P : String → Prop} (h : ∀ l ∈ lines, IsCode P l) :
    ∀ l ∈ lines, '\n' ∉ l.text.toList := by
  intro l hl hmem
  obtain ⟨kind, hline, -⟩ := h l hl
  exact (Assembled.unbroken hline.writes _ hmem).1 rfl

theorem Arduino.codeLines_source_iff {options : Options} {p : Program}
    (h : ∀ root ∈ activeRoots options p, root.Writable) :
    Except.Agree (fun text text' => codeLines text = codeLines text' ↔
        ∀ c ∈ (activeRoots options p).flatMap Root.comments, Inert .arduino c)
      (source options p) (source options p.uncommented) := by
  have hbare : ∀ root ∈ activeRoots options p.uncommented, root.Writable := by
    rw [activeRoots_uncommented]
    exact List.forall_mem_map.mpr fun root hroot => (h root hroot).uncommented
  have hnone : (activeRoots options p.uncommented).flatMap Root.comments = [] := by
    rw [activeRoots_uncommented, List.flatMap_map]
    exact List.flatMap_eq_nil_iff.mpr fun root _ => root.comments_uncommented
  have huncommented := weaves_program hbare
  rw [sketchShapes_uncommented, hnone] at huncommented
  unfold source
  refine ((weaves_program h).trans_symm huncommented).bind ?_
  rintro lines code ⟨ts, ⟨hwoven, hbraced⟩, hcode, -⟩
  rw [hcode.eq_of_nil]
  have hplain := isCode_bracesAll fun t ht => isCode_braces (hbraced t ht) 0
  have hfeeds := notMem_of_isCode hplain
  obtain ⟨hsublist, hlength⟩ := sublist_of_woven options.indent hwoven hplain
  change codeLines _ = codeLines _ ↔ _
  rw [codeLines_render hfeeds, codeLines_render (hwoven.notMem (by decide) hfeeds)]
  exact ⟨fun heq => hlength.mp (congrArg _ heq), fun hinert => hsublist.eq_of_length (hlength.mpr hinert)⟩

namespace Program

variable {blocks : List Block} {allowFloating : Bool} {p : Program}

/-- With and without its comments, an accepted program is written or refused alike. The sources have the same lines of
code exactly when each comment is inert. -/
theorem codeLines_uncommented_iff (h : ofBlocks blocks allowFloating = .ok p) (target : Target) (options : Options) :
    Except.Agree (fun text text' => codeLines target text = codeLines target text' ↔
        ∀ root ∈ activeRoots options p, ∀ c ∈ root.comments, Inert target c)
      (generate target options p) (generate target options p.uncommented) := by
  have hroots : ∀ root ∈ activeRoots options p, root.Writable := fun root hroot =>
    writableRoot_of_ofBlocks h (List.mem_of_mem_filter hroot)
  unfold generate
  rw [check_uncommented]
  refine Except.agree_bind _ fun _ _ => ?_
  simp only [← List.forall_mem_flatMap]
  cases target with
  | python => exact Python.codeLines_source_iff hroots
  | arduino => exact Arduino.codeLines_source_iff hroots

/-- A statement that prints a text, with a comment. -/
def remarkedBlock (comment : String) : Block :=
  { tag := Tag.print.name, attrs := { id := "a", comment := some { text := comment } },
    values := [("TEXT", { tag := Tag.text.name, attrs := { id := "b" }, fields := [("TEXT", "x # // y")] })] }

def remarkedProgram (comment : String) : Program :=
  { roots := [.statements [.print (.text "x # // y" { id := "b" })
      { id := "a", comment := some { text := comment } }]] }

def quotingProgram : Program :=
  remarkedProgram "\"a\\\n#\r# b"

theorem codeLines_uncommented_quoted :
    ofBlocks [remarkedBlock "\"a\\\n#\r# b"] false = .ok quotingProgram ∧
    ∀ target, (∀ root ∈ activeRoots {} quotingProgram, ∀ c ∈ root.comments, Inert target c) ∧
      Except.Agree (fun text text' => codeLines target text = codeLines target text')
        (generate target {} quotingProgram) (generate target {} quotingProgram.uncommented) := by
  have hinert : ∀ target, ∀ root ∈ activeRoots {} quotingProgram, ∀ c ∈ root.comments, Inert target c := by
    intro target
    cases target <;> simp only [Inert] <;> decide +kernel
  have haccepted : ofBlocks [remarkedBlock "\"a\\\n#\r# b"] false = .ok quotingProgram := by cbv
  refine ⟨haccepted, fun target => ⟨hinert target, ?_⟩⟩
  exact (codeLines_uncommented_iff haccepted target {}).mono fun _ _ hiff => hiff.mpr (hinert target)

/-- A carriage return ends a comment in Python, and the rest of it is code. A backslash at the end of a comment takes
the line below out of a sketch. -/
theorem comments_change_code :
    (ofBlocks [remarkedBlock "a\rb"] false = .ok (remarkedProgram "a\rb") ∧
      ∃ text text', generate .python {} (remarkedProgram "a\rb") = .ok text ∧
        generate .python {} (remarkedProgram "a\rb").uncommented = .ok text' ∧
        codeLines .python text = ['b'] :: codeLines .python text') ∧
    ofBlocks [remarkedBlock "a\\"] false = .ok (remarkedProgram "a\\") ∧
      ∃ text text', generate .arduino {} (remarkedProgram "a\\") = .ok text ∧
        generate .arduino {} (remarkedProgram "a\\").uncommented = .ok text' ∧
        (codeLines .arduino text).length + 1 = (codeLines .arduino text').length := by
  refine ⟨⟨by cbv, _, _, rfl, rfl, ?_⟩, by cbv, _, _, rfl, rfl, ?_⟩
  · decide +kernel
  · decide +kernel

end Program

end Blockwork
