import Blockwork.Xml.Reader
import Mathlib.Data.List.TakeWhile

/-! # Stages of reading XML texts

A scanner holds what may be half of a mark, so the tokens of a text depend on what comes after it. A reader of a
document that declares nothing is its scanner and a stage.
-/

namespace Blockwork.Xml

set_option autoImplicit false

variable {c d : Char} {s s' : Scanner} {name : List Char}

/-! ## Scanning -/

namespace Scanner

/-- Characters are read as tokens, from one state of the scanner to another. -/
inductive Scans : Scanner → List Char → List Token → Scanner → Prop where
  | nil (s : Scanner) : Scans s [] [] s
  | cons {s s₁ s' : Scanner} {c : Char} {cs : List Char} {first rest : List Token}
    (hfeed : s.feed c = some (first, s₁)) (h : Scans s₁ cs rest s') : Scans s (c :: cs) (first ++ rest) s'

theorem Scans.append {s₁ : Scanner} {cs ds : List Char} {ts us : List Token} (h : Scans s cs ts s₁)
    (h' : Scans s₁ ds us s') : Scans s (cs ++ ds) (ts ++ us) s' := by
  induction h with
  | nil s => exact h'
  | cons hfeed h ih =>
    rw [List.append_assoc]
    exact .cons hfeed (ih h')

def holding (held : List Char) : Scanner := { place := .content, inDoctype := false, held }

def halfMarks : List (List Char) := [[], ['/'], [']'], [']', ']']]

theorem feed_mark (h : c ≠ '<' ∧ c ≠ '/' ∧ c ≠ ']') : start.feed c = some ([.ofChar c], start) := by
  show start.fresh c = _
  simp [fresh, start, h]

theorem feed_after {held : List Char} (hheld : held ∈ halfMarks) (hc : c ≠ '>' ∧ c ≠ ']') {ts : List Token}
    (h : start.feed c = some (ts, s)) : (holding held).feed c = some (held.map .char ++ ts, s) := by
  have hfresh : start.fresh c = some (ts, s) := h
  simp only [halfMarks, List.mem_cons, List.not_mem_nil, or_false] at hheld
  rcases hheld with rfl | rfl | rfl | rfl
  · exact h
  · show (if c = '>' then _ else start.freshAfter ['/'] c) = _
    rw [if_neg hc.1, freshAfter, hfresh]
    rfl
  · show (if c = ']' then _ else start.freshAfter [']'] c) = _
    rw [if_neg hc.2, freshAfter, hfresh]
    rfl
  · show (if c = '>' then _ else if c = ']' then _ else start.freshAfter [']', ']'] c) = _
    rw [if_neg hc.1, if_neg hc.2, freshAfter, hfresh]
    rfl

theorem feed_plain {held : List Char} (hheld : held ∈ halfMarks) (hc : c ≠ '<' ∧ c ≠ '>') :
    ∃ ts, ∃ held' ∈ halfMarks, (holding held).feed c = some (ts, holding held')
      ∧ ts ++ held'.map .char = held.map .char ++ [.ofChar c] := by
  by_cases hbracket : c = ']'
  · subst hbracket
    simp only [halfMarks, List.mem_cons, List.not_mem_nil, or_false] at hheld
    rcases hheld with rfl | rfl | rfl | rfl
    · exact ⟨[], [']'], by simp [halfMarks], rfl, rfl⟩
    · exact ⟨[.char '/'], [']'], by simp [halfMarks], rfl, rfl⟩
    · exact ⟨[], [']', ']'], by simp [halfMarks], rfl, rfl⟩
    · exact ⟨[.char ']'], [']', ']'], by simp [halfMarks], rfl, rfl⟩
  · by_cases hslash : c = '/'
    · subst hslash
      have hfeed := @feed_after '/' (holding ['/']) held hheld (by decide) [] rfl
      refine ⟨_, ['/'], by simp [halfMarks], hfeed, ?_⟩
      rw [List.append_nil]
      rfl
    · have hfeed := feed_after hheld ⟨hc.2, hbracket⟩ (feed_mark ⟨hc.1, hslash, hbracket⟩)
      exact ⟨_, [], by simp [halfMarks], hfeed, by simp⟩

theorem scans_marks {cs : List Char} (h : ∀ c ∈ cs, c ≠ '<' ∧ c ≠ '/' ∧ c ≠ ']') :
    Scans start cs (cs.map .ofChar) start := by
  induction cs with
  | nil => exact .nil start
  | cons c cs ih =>
    obtain ⟨hc, hcs⟩ := List.forall_mem_cons.mp h
    exact .cons (feed_mark hc) (ih hcs)

theorem scans_plain {cs ds : List Char} {ts : List Token}
    (hcs : ∀ c ∈ cs, c ≠ '<' ∧ c ≠ '>') (hd : d ≠ '>' ∧ d ≠ ']') (h : Scans start (d :: ds) ts s) :
    Scans start (cs ++ d :: ds) (cs.map .ofChar ++ ts) s := by
  suffices hheld : ∀ held ∈ halfMarks,
      Scans (holding held) (cs ++ d :: ds) (held.map .char ++ (cs.map .ofChar ++ ts)) s from hheld [] (by decide)
  induction cs with
  | nil =>
    intro held hheld
    cases h with
    | @cons _ _ _ _ _ first rest hfeed h =>
      show Scans _ _ (_ ++ (first ++ rest)) _
      rw [← List.append_assoc]
      exact .cons (feed_after hheld hd hfeed) h
  | cons c cs ih =>
    intro held hheld
    obtain ⟨hc, hcs⟩ := List.forall_mem_cons.mp hcs
    obtain ⟨first, held', hheld', hfeed, hfirst⟩ := feed_plain hheld hc
    have hsplit : held.map Token.char ++ ((c :: cs).map .ofChar ++ ts)
        = first ++ (held'.map .char ++ (cs.map .ofChar ++ ts)) := by
      rw [← List.append_assoc first, hfirst]
      simp
    rw [hsplit]
    exact .cons hfeed (ih hcs held' hheld')

theorem scans_pair {ts : List Token} (hc : start.feed c = some ([], s)) (hd : s.feed d = some (ts, start)) :
    Scans start [c, d] ts start := by
  have h : Scans start [c, d] ([] ++ (ts ++ [])) start := .cons hc (.cons hd (.nil start))
  rwa [List.append_nil] at h

end Scanner

/-! ## Names -/

def isBareChar (c : Char) : Bool :=
  isNameChar c && c != ':'

def isBareStart (c : Char) : Bool :=
  isNameStart c && c != ':'

def isBare (name : List Char) : Bool :=
  match name with
  | [] => false
  | c :: cs => isBareStart c && cs.all isBareChar

theorem isNameStart_of_isBareStart (h : isBareStart c = true) : isNameStart c = true :=
  (Bool.and_eq_true_iff.mp h).1

theorem isBareChar_of_isBareStart (h : isBareStart c = true) : isBareChar c = true := by
  obtain ⟨hstart, hcolon⟩ := Bool.and_eq_true_iff.mp h
  rw [isBareChar, isNameChar, hstart, Bool.true_or, Bool.true_and, hcolon]

theorem all_isBareChar (h : isBare name = true) : name.all isBareChar = true := by
  cases name with
  | nil => rfl
  | cons c cs =>
    obtain ⟨hc, hcs⟩ := Bool.and_eq_true_iff.mp h
    exact Bool.and_eq_true_iff.mpr ⟨isBareChar_of_isBareStart hc, hcs⟩

theorem ne_of_isBareChar (h : isBareChar c = true) (hd : isBareChar d = false) : c ≠ d := by
  rintro rfl
  rw [h] at hd
  cases hd

theorem ofChar_of_isBareChar (h : isBareChar c = true) : Token.ofChar c = .char c := by
  have hne : ∀ d, isBareChar d = false → c ≠ d := fun d hd => ne_of_isBareChar h hd
  simp only [Token.ofChar, if_neg (hne '>' rfl), if_neg (hne '=' rfl), if_neg (hne '\x22' rfl),
    if_neg (hne '\x27' rfl), if_neg (hne '&' rfl), if_neg (hne ';' rfl)]

theorem scans_bare (h : name.all isBareChar = true) : Scanner.Scans .start name (name.map .ofChar) .start := by
  refine Scanner.scans_marks fun c hc => ?_
  have hbare := List.all_eq_true.mp h c hc
  exact ⟨ne_of_isBareChar hbare rfl, ne_of_isBareChar hbare rfl, ne_of_isBareChar hbare rfl⟩

theorem ofChars?_of_isBare (h : isBare name = true) :
    QName.ofChars? name = some { scope := none, base := String.ofList name } := by
  cases name with
  | nil => cases h
  | cons c cs =>
    have hall : ∀ d ∈ c :: cs, d ≠ ':' := fun d hd =>
      ne_of_isBareChar (List.all_eq_true.mp (all_isBareChar h) d hd) rfl
    have htake : (c :: cs).takeWhile (· ≠ ':') = c :: cs :=
      List.takeWhile_eq_self_iff.mpr fun d hd => decide_eq_true (hall d hd)
    have hdrop : (c :: cs).dropWhile (· ≠ ':') = [] :=
      List.dropWhile_eq_nil_iff.mpr fun d hd => decide_eq_true (hall d hd)
    simp only [QName.ofChars?, htake, hdrop]
    rfl

/-! ## Stages -/

/-- A reader of a document in which nothing was declared, apart from its scanner. -/
structure Stage where
  mode : Mode
  inProlog : Bool
  builder : Builder

namespace Stage

def reader (g : Stage) (scanner : Scanner) : Reader :=
  { scanner
    mode := g.mode
    declared := { version := .one, encoding := .utf8 }
    marked := false
    inProlog := g.inProlog
    entities := []
    builder := g.builder
    pending := []
    expansions := 0 }

def Takes (g : Stage) (t : Token) (g' : Stage) : Prop :=
  ∀ s, (g.reader s).step t = some (g'.reader s)

/-- Tokens lead from one stage to another. -/
inductive TakesAll : Stage → List Token → Stage → Prop where
  | nil (g : Stage) : TakesAll g [] g
  | cons {g g₁ g' : Stage} {t : Token} {ts : List Token} (ht : Takes g t g₁) (h : TakesAll g₁ ts g') :
    TakesAll g (t :: ts) g'

variable {g g₁ g' : Stage} {t : Token} {ts us : List Token} {cs ds : List Char}

theorem TakesAll.single (h : Takes g t g') : TakesAll g [t] g' :=
  .cons h (.nil g')

theorem TakesAll.append (h : TakesAll g ts g₁) (h' : TakesAll g₁ us g') : TakesAll g (ts ++ us) g' := by
  induction h with
  | nil g => exact h'
  | cons ht h ih => exact .cons ht (ih h')

theorem TakesAll.split (h : TakesAll g (ts ++ us) g') : ∃ g₁, TakesAll g ts g₁ ∧ TakesAll g₁ us g' := by
  induction ts generalizing g with
  | nil => exact ⟨g, .nil g, h⟩
  | cons t ts ih =>
    cases h with
    | cons ht h =>
      obtain ⟨g₁, hts, hus⟩ := ih h
      exact ⟨g₁, .cons ht hts, hus⟩

theorem TakesAll.foldlM (h : TakesAll g ts g') (s : Scanner) :
    ts.foldlM Reader.step (g.reader s) = some (g'.reader s) := by
  induction h with
  | nil g => rfl
  | cons ht h ih =>
    rw [List.foldlM_cons, ht s]
    exact ih

def Reads (g : Stage) (cs : List Char) (g' : Stage) : Prop :=
  ∃ ts, Scanner.Scans .start cs ts .start ∧ TakesAll g ts g'

theorem Reads.append (h : Reads g cs g₁) (h' : Reads g₁ ds g') : Reads g (cs ++ ds) g' := by
  obtain ⟨ts, hscans, htakes⟩ := h
  obtain ⟨us, hscans', htakes'⟩ := h'
  exact ⟨ts ++ us, hscans.append hscans', htakes.append htakes'⟩

theorem reads_mark (hc : c ≠ '<' ∧ c ≠ '/' ∧ c ≠ ']') (h : Takes g (.ofChar c) g') : Reads g [c] g' :=
  ⟨[.ofChar c], .cons (Scanner.feed_mark hc) (.nil _), .single h⟩

theorem reads_plain (hcs : ∀ c ∈ cs, c ≠ '<' ∧ c ≠ '>') (hd : d ≠ '>' ∧ d ≠ ']')
    (h : TakesAll g (cs.map .ofChar) g₁) (h' : Reads g₁ (d :: ds) g') : Reads g (cs ++ d :: ds) g' := by
  obtain ⟨us, hscans, htakes⟩ := h'
  exact ⟨cs.map .ofChar ++ us, Scanner.scans_plain hcs hd hscans, h.append htakes⟩

theorem read?_reader (hfeed : s.feed c = some (ts, s')) (h : TakesAll g ts g') :
    (g.reader s).read? c = some (g'.reader s') := by
  have hfeed? : (g.reader s).feed? c = some (g'.reader s') := by
    show (s.feed c >>= _) = _
    rw [hfeed]
    exact h.foldlM s'
  have hall : Reader.feedAll? maxExpansions (g.reader s) [c] = some (g'.reader s') := by
    rw [maxExpansions, Reader.feedAll?, List.foldlM_cons, hfeed?]
    rfl
  show (Reader.feedAll? maxExpansions (g.reader s) [c] >>= pure) = _
  rw [hall]
  rfl

theorem foldlM_read?_of_scans (hscans : Scanner.Scans s cs ts s') (h : TakesAll g ts g') :
    cs.foldlM Reader.read? (g.reader s) = some (g'.reader s') := by
  induction hscans generalizing g with
  | nil s =>
    cases h
    rfl
  | cons hfeed hscans ih =>
    obtain ⟨g₁, hfirst, hrest⟩ := h.split
    rw [List.foldlM_cons, read?_reader hfeed hfirst]
    exact ih hrest

theorem Reads.foldlM_read? (h : Reads g cs g') :
    cs.foldlM Reader.read? (g.reader .start) = some (g'.reader .start) := by
  obtain ⟨ts, hscans, htakes⟩ := h
  exact foldlM_read?_of_scans hscans htakes

end Stage

/-! ## References -/

def isReference (name : List Char) : Bool :=
  match name with
  | [] => false
  | c :: cs => (isBareStart c || c == '#') && cs.all isBareChar

/-- A reference that stands for a character, in a document in which nothing was declared. -/
structure Refers (name : List Char) (c : Char) : Prop where
  isReference : isReference name = true
  meaning : Entities.meaning? .one [] name = some (.char c)

theorem plain_reference (h : Refers name c) (hd : d ∈ '&' :: (name ++ [';'])) : d ≠ '<' ∧ d ≠ '>' := by
  have hbare : ∀ d, isBareChar d = true → d ≠ '<' ∧ d ≠ '>' := fun d hd =>
    ⟨ne_of_isBareChar hd rfl, ne_of_isBareChar hd rfl⟩
  have hname : ∀ d ∈ name, d ≠ '<' ∧ d ≠ '>' := by
    have hreference := h.isReference
    cases name with
    | nil => exact fun d hd => absurd hd List.not_mem_nil
    | cons e es =>
      obtain ⟨he, hes⟩ := Bool.and_eq_true_iff.mp hreference
      refine List.forall_mem_cons.mpr ⟨?_, fun d hd => hbare d (List.all_eq_true.mp hes d hd)⟩
      rcases Bool.or_eq_true_iff.mp he with he | he
      · exact hbare e (isBareChar_of_isBareStart he)
      · rw [eq_of_beq he]
        decide
  rw [List.mem_cons, List.mem_append, List.mem_singleton] at hd
  rcases hd with rfl | hd | rfl
  · decide
  · exact hname d hd
  · decide

namespace Stage

variable {g' : Stage}
variable {seen : List Char}

theorem takesAll_bare {f : List Char → Stage} {cs : List Char} (hcs : cs.all isBareChar = true) (hseen : seen ≠ [])
    (hf : ∀ seen c, seen ≠ [] → isBareChar c = true → Takes (f seen) (.char c) (f (c :: seen))) :
    TakesAll (f seen) (cs.map .ofChar) (f (cs.reverse ++ seen)) := by
  induction cs generalizing seen with
  | nil => exact .nil _
  | cons c cs ih =>
    obtain ⟨hc, hcs⟩ := Bool.and_eq_true_iff.mp hcs
    rw [List.map_cons, ofChar_of_isBareChar hc, List.reverse_cons, List.append_assoc]
    exact .cons (hf seen c hseen hc) (ih hcs (List.cons_ne_nil c seen))

theorem continuesName_of_isBareChar (hseen : seen ≠ []) (hc : isBareChar c = true) : continuesName seen c = true := by
  rw [continuesName, if_neg (by simpa using hseen)]
  exact (Bool.and_eq_true_iff.mp hc).1

theorem readReference?_of_continuesName (h : continuesName seen c = true) :
    readReference? seen (.char c) = some (.more (c :: seen)) :=
  if_pos (Bool.or_eq_true_iff.mpr (.inl h))

theorem takesAll_reference {f : List Char → Stage} (h : Refers name c)
    (hmore : ∀ seen t seen', readReference? seen t = some (.more seen') → Takes (f seen) t (f seen'))
    (hdone : ∀ seen t, readReference? seen t = some (.done name) → Takes (f seen) t g') :
    TakesAll (f []) ((name ++ [';']).map .ofChar) g' := by
  obtain ⟨hname, -⟩ := h
  cases name with
  | nil => cases hname
  | cons d ds =>
    obtain ⟨hd, hds⟩ := Bool.and_eq_true_iff.mp hname
    have hfirst : Token.ofChar d = .char d ∧ readReference? [] (.char d) = some (.more [d]) := by
      rcases Bool.or_eq_true_iff.mp hd with hd | hd
      · have hcontinues : continuesName [] d = true := isNameStart_of_isBareStart hd
        exact ⟨ofChar_of_isBareChar (isBareChar_of_isBareStart hd), readReference?_of_continuesName hcontinues⟩
      · rw [eq_of_beq hd]
        exact ⟨rfl, rfl⟩
    have hlast : readReference? (ds.reverse ++ [d]) .semicolon = some (.done (d :: ds)) := by
      have hdone : readReference? (ds.reverse ++ [d]) .semicolon = some (.done (ds.reverse ++ [d]).reverse) :=
        if_neg (by simp)
      rw [hdone, List.reverse_append, List.reverse_reverse]
      rfl
    rw [List.map_append, List.map_cons, hfirst.1]
    have hrest : TakesAll (f [d]) (ds.map .ofChar) (f (ds.reverse ++ [d])) := by
      refine takesAll_bare hds (List.cons_ne_nil d []) fun seen c hseen hc => ?_
      exact hmore _ _ _ (readReference?_of_continuesName (continuesName_of_isBareChar hseen hc))
    exact .append (.cons (hmore _ _ _ hfirst.2) hrest) (.single (hdone _ _ hlast))

end Stage

end Blockwork.Xml
