import Blockwork.Proofs.AttributeOrder
import Blockwork.Proofs.XmlStages
import Blockwork.Xml.Writer

/-! # Texts of XML trees

* `Xml.Stage.takesAll_text` and `Xml.Stage.takesAll_value` undo what writing does to the characters of texts and of
  values.
* `Xml.Legible` says that a tree has names without scopes, characters that may be written, and in each element either
  one text or only elements.
* `Xml.parse?_render` says that a legible tree is read back from its text without the texts that are blank.
-/

namespace Blockwork.Xml

set_option autoImplicit false

open Dict (keys Sorted)
open String (ofList ofList_toList toList_append)

variable {c : Char} {cs : List Char}

/-! ## Texts -/

theorem ofChar_cases (hgt : c ≠ '>') (hamp : c ≠ '&') :
    (c = '=' ∨ c = '\x22' ∨ c = '\x27' ∨ c = ';') ∨ Token.ofChar c = .char c := by
  unfold Token.ofChar
  rw [if_neg hgt, if_neg hamp]
  grind

theorem textChar_cases (c : Char) :
    (∃ name, textChar c = '&' :: (name ++ [';']) ∧ Refers name c)
      ∨ textChar c = [c] ∧ c ≠ '<' ∧ c ≠ '>' ∧ c ≠ '&' := by
  unfold textChar
  split_ifs with hlt hgt hamp
  · exact .inl ⟨['l', 't'], rfl, rfl, by rw [hlt]; rfl⟩
  · exact .inl ⟨['g', 't'], rfl, rfl, by rw [hgt]; rfl⟩
  · exact .inl ⟨['a', 'm', 'p'], rfl, rfl, by rw [hamp]; rfl⟩
  · exact .inr ⟨rfl, hlt, hgt, hamp⟩

theorem valueChar_cases (c : Char) :
    (∃ name, valueChar c = '&' :: (name ++ [';']) ∧ Refers name c)
      ∨ valueChar c = [c] ∧ c ≠ '<' ∧ c ≠ '>' ∧ c ≠ '&' ∧ c ≠ '\x22' ∧ c ≠ '\x27' := by
  unfold valueChar
  split_ifs with hlt hgt hamp hquot hapos hfeed hreturn
  · exact .inl ⟨['l', 't'], rfl, rfl, by rw [hlt]; rfl⟩
  · exact .inl ⟨['g', 't'], rfl, rfl, by rw [hgt]; rfl⟩
  · exact .inl ⟨['a', 'm', 'p'], rfl, rfl, by rw [hamp]; rfl⟩
  · exact .inl ⟨['q', 'u', 'o', 't'], rfl, rfl, by rw [hquot]; rfl⟩
  · exact .inl ⟨['a', 'p', 'o', 's'], rfl, rfl, by rw [hapos]; rfl⟩
  · exact .inl ⟨['#', 'x', 'A'], rfl, rfl, by rw [hfeed]; rfl⟩
  · exact .inl ⟨['#', 'x', 'D'], rfl, rfl, by rw [hreturn]; rfl⟩
  · exact .inr ⟨rfl, hlt, hgt, hamp, hquot, hapos⟩

theorem plain_escaped (h : (∃ name, cs = '&' :: (name ++ [';']) ∧ Refers name c) ∨ cs = [c] ∧ c ≠ '<' ∧ c ≠ '>') :
    ∀ d ∈ cs, d ≠ '<' ∧ d ≠ '>' := by
  intro d hd
  rcases h with ⟨name, rfl, hname⟩ | ⟨rfl, hc⟩
  · exact plain_reference hname hd
  · rw [List.mem_singleton.mp hd]
    exact hc

theorem plain_text (cs : List Char) : ∀ c ∈ cs.flatMap textChar, c ≠ '<' ∧ c ≠ '>' := by
  intro c hc
  obtain ⟨d, -, hd⟩ := List.mem_flatMap.mp hc
  exact plain_escaped ((textChar_cases d).imp_right fun h => ⟨h.1, h.2.1, h.2.2.1⟩) c hd

theorem plain_value (cs : List Char) : ∀ c ∈ cs.flatMap valueChar, c ≠ '<' ∧ c ≠ '>' := by
  intro c hc
  obtain ⟨d, -, hd⟩ := List.mem_flatMap.mp hc
  exact plain_escaped ((valueChar_cases d).imp_right fun h => ⟨h.1, h.2.1, h.2.2.1⟩) c hd

namespace Builder

variable {b : Builder}

structure Rests (b : Builder) : Prop where
  run : b.run = []
  isBlank : b.isBlank = true

theorem foldl_push (b : Builder) (cs : List Char) :
    cs.foldl push b = { b with run := cs.reverse ++ b.run, isBlank := b.isBlank && cs.all isSpace } := by
  induction cs generalizing b with
  | nil =>
    rw [List.all_nil, Bool.and_true]
    rfl
  | cons c cs ih =>
    rw [List.foldl_cons, ih]
    simp [push, Bool.and_assoc]

theorem Rests.put (h : b.Rests) (x : Xml) : (b.put x).Rests := by
  obtain ⟨stack, root, run, isBlank⟩ := b
  cases stack with
  | nil => exact ⟨h.run, h.isBlank⟩
  | cons e rest => exact ⟨h.run, h.isBlank⟩

theorem rests_endRun (b : Builder) : b.endRun.Rests := by
  have hb : ({ b with run := [], isBlank := true } : Builder).Rests := ⟨rfl, rfl⟩
  unfold endRun
  split
  · exact hb
  · split
    · exact hb
    · exact hb.put _

theorem Rests.endRun_foldl_push (h : b.Rests) (cs : List Char) :
    (cs.foldl push b).endRun = if cs.all isSpace then b else b.put (.text (ofList cs)) := by
  obtain ⟨stack, root, run, isBlank⟩ := b
  obtain ⟨rfl, rfl⟩ : run = [] ∧ isBlank = true := ⟨h.run, h.isBlank⟩
  rw [foldl_push]
  cases hblank : cs.all isSpace with
  | true => rfl
  | false =>
    have hcs : cs ≠ [] := by
      rintro rfl
      cases hblank
    simp [endRun, hcs]

end Builder

namespace Stage

variable {b : Builder} {g : Stage}

def outside (b : Builder) : Stage := { mode := .outside, inProlog := false, builder := b }

theorem takes_push (hb : b.isOutermost = false) (hallows : Version.one.allows c = true)
    (hc : c ≠ '<' ∧ c ≠ '>' ∧ c ≠ '&') : Takes (outside b) (.ofChar c) (outside (b.push c)) := by
  intro s
  have hinside : ((outside b).reader s).builder.isOutermost = false := hb
  have hversion : ((outside b).reader s).version.allows c = true := hallows
  show ((outside b).reader s).readOutside? (.ofChar c) = _
  rcases ofChar_cases hc.2.1 hc.2.2 with (rfl | rfl | rfl | rfl) | hchar
  · exact if_neg (ne_true_of_eq_false hinside)
  · exact if_neg (ne_true_of_eq_false hinside)
  · exact if_neg (ne_true_of_eq_false hinside)
  · exact if_neg (ne_true_of_eq_false hinside)
  · rw [hchar]
    show ((outside b).reader s).readChar? c = _
    rw [Reader.readChar?, hinside, hversion]
    rfl

theorem takesAll_textChar (hb : b.isOutermost = false) (hallows : Version.one.allows c = true) :
    TakesAll (outside b) ((textChar c).map .ofChar) (outside (b.push c)) := by
  rcases textChar_cases c with ⟨name, htext, hname⟩ | ⟨htext, hc⟩
  · rw [htext]
    have hopen : Takes (outside b) .ampersand { outside b with mode := .reference [] } := by
      intro s
      exact if_neg (ne_true_of_eq_false hb)
    refine .cons hopen (takesAll_reference (f := fun seen => { outside b with mode := .reference seen }) hname ?_ ?_)
    · intro seen t seen' hread s
      show (readReference? seen t >>= _) = _
      rw [hread]
      rfl
    · intro seen t hread s
      show (readReference? seen t >>= _) = _
      rw [hread]
      show (Entities.meaning? .one [] name >>= _) = _
      rw [hname.meaning]
      rfl
  · rw [htext]
    exact .single (takes_push hb hallows hc)

theorem takesAll_text (hb : b.isOutermost = false) (hallows : cs.all Version.one.allows = true) :
    TakesAll (outside b) ((cs.flatMap textChar).map .ofChar) (outside (cs.foldl Builder.push b)) := by
  induction cs generalizing b with
  | nil => exact .nil _
  | cons c cs ih =>
    obtain ⟨hc, hcs⟩ := Bool.and_eq_true_iff.mp hallows
    rw [List.flatMap_cons, List.map_append]
    exact (takesAll_textChar hb hc).append (@ih (b.push c) hb hcs)

/-! ## Values -/

section Values

variable {tag key : QName} {a : TagAttributes}

def inTag (b : Builder) (tag : QName) (a : TagAttributes) (place : InTag) : Stage :=
  { mode := .tag tag a place, inProlog := false, builder := b }

def inValue (b : Builder) (tag : QName) (a : TagAttributes) (key : QName) (chars : List Char) : Stage :=
  inTag b tag a (.value key { quote := some .quote, chars, reference := none })

theorem inside?_ofChar {q : Quoted} (hallows : Version.one.allows c = true)
    (hc : c ≠ '<' ∧ c ≠ '>' ∧ c ≠ '&' ∧ c ≠ '\x22' ∧ c ≠ '\x27') :
    q.inside? .one (.ofChar c) = some { q with chars := c :: q.chars } := by
  obtain ⟨-, hgt, hamp, hquot, hapos⟩ := hc
  rcases ofChar_cases hgt hamp with (rfl | rfl | rfl | rfl) | hchar
  · rfl
  · exact absurd rfl hquot
  · exact absurd rfl hapos
  · rfl
  · rw [hchar, Quoted.inside?, if_pos hallows]

theorem takesAll_valueChar (chars : List Char) (hallows : Version.one.allows c = true) :
    TakesAll (inValue b tag a key chars) ((valueChar c).map .ofChar) (inValue b tag a key (c :: chars)) := by
  rcases valueChar_cases c with ⟨name, hvalue, hname⟩ | ⟨hvalue, hc⟩
  · rw [hvalue]
    let f (seen : List Char) : Stage :=
      inTag b tag a (.value key { quote := some .quote, chars, reference := some seen })
    have hopen : Takes (inValue b tag a key chars) .ampersand (f []) := fun s => rfl
    refine .cons hopen (takesAll_reference hname ?_ ?_)
    · intro seen t seen' hread s
      show ((readReference? seen t >>= _) >>= _) = _
      rw [hread]
      rfl
    · intro seen t hread s
      show ((readReference? seen t >>= _) >>= _) = _
      rw [hread]
      show ((Entities.meaning? .one [] name >>= _) >>= _) = _
      rw [hname.meaning]
      rfl
  · rw [hvalue]
    have hquote : Token.ofChar c ≠ .quote := by
      obtain ⟨-, hgt, hamp, hquot, hapos⟩ := hc
      rcases ofChar_cases hgt hamp with (rfl | rfl | rfl | rfl) | hchar
      · decide
      · exact absurd rfl hquot
      · decide
      · decide
      · rw [hchar]
        nofun
    refine .single fun s => ?_
    show ((if Token.ofChar c = .quote then _ else ((_ : Quoted).inside? .one (.ofChar c)).map _) >>= _) = _
    rw [if_neg hquote, inside?_ofChar hallows hc]
    rfl

theorem takesAll_value (chars : List Char) (hallows : cs.all Version.one.allows = true) :
    TakesAll (inValue b tag a key chars) ((cs.flatMap valueChar).map .ofChar)
      (inValue b tag a key (cs.reverse ++ chars)) := by
  induction cs generalizing chars with
  | nil => exact .nil _
  | cons c cs ih =>
    obtain ⟨hc, hcs⟩ := Bool.and_eq_true_iff.mp hallows
    rw [List.flatMap_cons, List.map_append, List.reverse_cons, List.append_assoc]
    exact (takesAll_valueChar chars hc).append (ih (c :: chars) hcs)

end Values

end Stage

/-! ## Tags -/

def QName.bare (name : String) : QName := { scope := none, base := name }

def TagAttributes.bare (attributes : List (String × String)) : TagAttributes :=
  { proper := attributes.map fun (key, value) => (.bare key, value), scopes := [] }

variable {attributes : List (String × String)}

theorem TagAttributes.contains_bare {key : String}
    (h : key ∉ keys attributes) : (TagAttributes.bare attributes).contains (.bare key) = false := by
  rw [contains, List.contains_eq_mem, decide_eq_false_iff_not]
  intro hmem
  simp only [bare, List.map_map, List.mem_map, Function.comp_apply] at hmem
  obtain ⟨pair, hpair, hkey⟩ := hmem
  have hbase : pair.1 = key := congrArg QName.base hkey
  exact h (hbase ▸ List.mem_map_of_mem hpair)

theorem TagAttributes.add?_bare {key value : String} (hkey : key ≠ "xmlns") (h : key ∉ keys attributes) :
    (TagAttributes.bare attributes).add? (.bare key) value = some (.bare (attributes ++ [(key, value)])) := by
  have hscope : ¬ (QName.bare key).scope = some "xmlns" := nofun
  have hbase : ¬ ((QName.bare key).scope = none ∧ (QName.bare key).base = "xmlns") := fun hbase => hkey hbase.2
  rw [add?, if_neg hscope, if_neg hbase, contains_bare h]
  simp [bare]

section Names

variable {ends : Token → Bool} {name : List Char} (h : isBare name = true)
include h

theorem ne_nil_of_isBare : name ≠ [] := by
  rintro rfl
  cases h

theorem readName?_blank : readName? ends name.reverse (.char ' ') = some (.done (.bare (ofList name))) := by
  have hcontinues : continuesName name.reverse ' ' = false := by
    rw [continuesName, if_neg (by simpa using ne_nil_of_isBare h)]
    rfl
  rw [readName?, hcontinues, List.reverse_reverse, ofChars?_of_isBare h]
  rfl

theorem readName?_mark {t : Token} (ht : ∀ c, t ≠ .char c) (hends : ends t = true) :
    readName? ends name.reverse t = some (.done (.bare (ofList name))) := by
  rw [readName?, hends, List.reverse_reverse, ofChars?_of_isBare h]
  · rfl
  · exact ht

end Names

namespace Stage

variable {b : Builder} {g : Stage}

theorem takesAll_name (ends : Token → Bool) (f : List Char → Stage) {name : List Char} (hname : isBare name = true)
    (hmore : ∀ seen c, isBareChar c = true → readName? ends seen (.char c) = some (.more (c :: seen)) →
      Takes (f seen) (.char c) (f (c :: seen))) :
    TakesAll (f []) (name.map .ofChar) (f name.reverse) := by
  cases name with
  | nil => exact .nil _
  | cons c cs =>
    obtain ⟨hc, hcs⟩ := Bool.and_eq_true_iff.mp hname
    have hread : ∀ {seen d}, isBareChar d = true → continuesName seen d = true →
        readName? ends seen (.char d) = some (.more (d :: seen)) := by
      intro seen d hd hcontinues
      rw [readName?, if_neg (ne_of_isBareChar hd rfl), if_pos hcontinues]
    have hbare := isBareChar_of_isBareStart hc
    rw [List.map_cons, ofChar_of_isBareChar hbare, List.reverse_cons]
    refine .cons (hmore _ _ hbare (hread hbare (isNameStart_of_isBareStart hc))) ?_
    refine takesAll_bare hcs (List.cons_ne_nil c []) fun seen d hseen hd => ?_
    exact hmore _ _ hd (hread hd (continuesName_of_isBareChar hseen hd))

/-- A tag in which an attribute may follow, or the end of the tag. -/
structure EndsTag (g : Stage) (b : Builder) (tag : QName) (a : TagAttributes) : Prop where
  blank : Takes g (.char ' ') (inTag b tag a .between)
  close : ∀ b', b.openElement? tag a = some b' → Takes g .tagClose (outside b')

variable {tag : QName}

theorem openElement?_reader {mode : Mode} {a : TagAttributes} {b' : Builder} {s : Scanner}
    (h : b.openElement? tag a = some b') :
    (reader { mode, inProlog := false, builder := b } s).openElement? tag a false = some ((outside b').reader s) := by
  show (b.openElement? tag a >>= _) = _
  rw [h]
  rfl

theorem endsTag_tagName {name : String} (hname : isBare name.toList = true) :
    EndsTag { mode := .tagName name.toList.reverse, inProlog := false, builder := b } b (.bare name) (.bare []) where
  blank s := by
    show (readName? _ name.toList.reverse (.char ' ') >>= _) = _
    rw [readName?_blank hname, ofList_toList]
    rfl
  close b' hb' s := by
    show (readName? _ name.toList.reverse .tagClose >>= _) = _
    rw [readName?_mark hname, ofList_toList]
    · exact openElement?_reader hb'
    · nofun
    · rfl

theorem endsTag_after {a : TagAttributes} : EndsTag (inTag b tag a .after) b tag a where
  blank _ := rfl
  close _ hb' _ := openElement?_reader hb'

theorem reads_tagName {name : List Char} (hmode : g.mode = .start ∨ g.mode = .outside) (hname : isBare name = true) :
    Reads g ('<' :: name) { mode := .tagName name.reverse, inProlog := false, builder := g.builder.endRun } := by
  obtain ⟨mode, inProlog, builder⟩ := g
  have hopen : Takes ⟨mode, inProlog, builder⟩ .tagOpen ⟨.tagName [], false, builder.endRun⟩ := by
    rcases hmode with rfl | rfl
    · exact fun s => rfl
    · exact fun s => rfl
  refine ⟨.tagOpen :: name.map .ofChar, ?_, .cons hopen ?_⟩
  · cases name with
    | nil => cases hname
    | cons c cs =>
      obtain ⟨hc, hcs⟩ := Bool.and_eq_true_iff.mp hname
      have hbare := isBareChar_of_isBareStart hc
      have hnameChar : isNameChar c = true := (Bool.and_eq_true_iff.mp hbare).1
      have hhold : Scanner.start.feed '<' = some ([], .holding ['<']) := rfl
      have hangle : (Scanner.holding ['<']).feed c = some ([.tagOpen, .char c], .start) := by
        show (Scanner.holding ['<']).angle c = _
        rw [Scanner.angle, if_neg (ne_of_isBareChar hbare rfl), if_neg (ne_of_isBareChar hbare rfl),
          if_neg (ne_of_isBareChar hbare rfl), hnameChar, Bool.or_true]
        rfl
      rw [List.map_cons, ofChar_of_isBareChar hbare]
      have hname : Scanner.Scans (.holding ['<']) (c :: cs) (.tagOpen :: .char c :: cs.map .ofChar) .start :=
        .cons hangle (scans_bare hcs)
      exact .cons hhold hname
  · refine takesAll_name (fun t => t = .tagClose || t = .emptyTagClose)
      (fun seen => ⟨.tagName seen, false, builder.endRun⟩) hname ?_
    intro seen c _ hread s
    show (readName? _ seen (.char c) >>= _) = _
    rw [hread]
    rfl

section Attributes

variable {tag : QName} {attributes : List (String × String)} {key value : String}

def inName (b : Builder) (tag : QName) (a : TagAttributes) (seen : List Char) : Stage :=
  inTag b tag a (if seen.isEmpty then .between else .name seen)

theorem step_inName {a : TagAttributes} {seen : List Char} {t : Token} (s : Scanner)
    (h : seen ≠ [] ∨ ∃ c, t = .char c ∧ isSpace c = false) :
    ((inName b tag a seen).reader s).step t = ((inName b tag a seen).reader s).readAttribute? tag a seen t := by
  cases seen with
  | nil =>
    rcases h with h | ⟨c, rfl, hc⟩
    · exact absurd rfl h
    · exact if_neg (ne_true_of_eq_false hc)
  | cons d ds => rfl

theorem reads_attributeName {a : TagAttributes} {name : List Char} (hname : isBare name = true) :
    Reads (inName b tag a []) name (inName b tag a name.reverse) := by
  refine ⟨_, scans_bare (all_isBareChar hname), takesAll_name (· = .equals) (inName b tag a) hname ?_⟩
  intro seen c hc hread s
  have hspace : isSpace c = false := by
    simp [isSpace, ne_of_isBareChar hc (d := ' ') rfl, ne_of_isBareChar hc (d := '\t') rfl,
      ne_of_isBareChar hc (d := '\n') rfl, ne_of_isBareChar hc (d := '\r') rfl]
  rw [step_inName s (.inr ⟨c, rfl, hspace⟩)]
  show (readName? _ seen (.char c) >>= _) = _
  rw [hread]
  rfl

theorem reads_equals (hkey : isBare key.toList = true) (hnew : key ∉ keys attributes) :
    Reads (inName b tag (.bare attributes) key.toList.reverse) ['=']
      (inTag b tag (.bare attributes) (.value (.bare key) .start)) := by
  refine reads_mark (by decide) fun s => ?_
  rw [step_inName s (.inl (by simpa using ne_nil_of_isBare hkey))]
  show (readName? _ key.toList.reverse .equals >>= _) = _
  rw [readName?_mark hkey, ofList_toList]
  · show (if (TagAttributes.bare attributes).contains (.bare key) = true then none else _) = _
    rw [TagAttributes.contains_bare hnew]
    rfl
  · nofun
  · rfl

theorem reads_value (hxmlns : key ≠ "xmlns") (hnew : key ∉ keys attributes)
    (hvalue : value.toList.all Version.one.allows = true) :
    Reads (inTag b tag (.bare attributes) (.value (.bare key) .start))
      ('\x22' :: (value.toList.flatMap valueChar ++ ['\x22']))
      (inTag b tag (.bare (attributes ++ [(key, value)])) .after) := by
  have hopen : Reads (inTag b tag (.bare attributes) (.value (.bare key) .start)) ['\x22']
      (inValue b tag (.bare attributes) (.bare key) []) := reads_mark (by decide) fun s => rfl
  have hrun : TakesAll (inValue b tag (.bare attributes) (.bare key) []) ((value.toList.flatMap valueChar).map .ofChar)
      (inValue b tag (.bare attributes) (.bare key) (value.toList.reverse ++ [])) := takesAll_value [] hvalue
  rw [List.append_nil] at hrun
  refine hopen.append (reads_plain (plain_value _) (by decide) hrun (reads_mark (by decide) fun s => ?_))
  show ((TagAttributes.bare attributes).add? (.bare key) (ofList value.toList.reverse.reverse) >>= _) = _
  rw [List.reverse_reverse, ofList_toList, TagAttributes.add?_bare hxmlns hnew]
  rfl

theorem reads_attribute (hg : EndsTag g b tag (.bare attributes)) (hkey : isBare key.toList = true)
    (hxmlns : key ≠ "xmlns") (hnew : key ∉ keys attributes)
    (hvalue : value.toList.all Version.one.allows = true) :
    Reads g (attributeText key value).toList (inTag b tag (.bare (attributes ++ [(key, value)])) .after) := by
  have htext : (attributeText key value).toList
      = [' '] ++ (key.toList ++ (['='] ++ '\x22' :: (value.toList.flatMap valueChar ++ ['\x22']))) := by
    simp [attributeText]
  have hblank : Reads g [' '] (inName b tag (.bare attributes) []) := reads_mark (by decide) hg.blank
  rw [htext]
  exact hblank.append ((reads_attributeName hkey).append
    ((reads_equals hkey hnew).append (reads_value hxmlns hnew hvalue)))

end Attributes

theorem reads_attributes {attributes rest : List (String × String)}
    (hg : EndsTag g b tag (.bare attributes)) (hsorted : Sorted (attributes ++ rest))
    (hrest : ∀ pair ∈ rest, isBare pair.1.toList = true ∧ pair.1 ≠ "xmlns"
      ∧ pair.2.toList.all Version.one.allows = true) :
    ∃ g', Reads g (attributesText rest).toList g' ∧ EndsTag g' b tag (.bare (attributes ++ rest)) := by
  induction rest generalizing g attributes with
  | nil =>
    refine ⟨g, ⟨[], .nil _, .nil g⟩, ?_⟩
    rwa [List.append_nil]
  | cons pair rest ih =>
    obtain ⟨⟨hkey, hxmlns, hvalue⟩, hrest⟩ := List.forall_mem_cons.mp hrest
    have hnew : pair.1 ∉ keys attributes := by
      have hnodup := hsorted.nodup_keys
      rw [keys, List.map_append, List.nodup_append] at hnodup
      intro hmem
      exact hnodup.2.2 _ hmem _ List.mem_cons_self rfl
    rw [List.append_cons] at hsorted
    obtain ⟨g', hreads, hends⟩ := ih endsTag_after hsorted hrest
    refine ⟨g', ?_, ?_⟩
    · rw [attributesText, List.map_cons, String.join_cons, toList_append]
      exact (reads_attribute hg hkey hxmlns hnew hvalue).append hreads
    · rwa [List.append_cons]

end Stage

/-! ## Elements -/

namespace Builder

variable {b : Builder} {name : String} {attributes : List (String × String)}

def opened (b : Builder) (name : String) (attributes : List (String × String)) (children : List Xml) : Builder :=
  { b with stack := { name := .bare name, attributes, children := children.reverse, scopes := b.scopes } :: b.stack }

theorem openElement?_bare (h : Sorted attributes) :
    b.openElement? (.bare name) (.bare attributes) = some (b.opened name attributes []) := by
  let pairs := (TagAttributes.bare attributes).proper.map fun proper => (proper.1.base, proper.2)
  have hpairs : pairs = attributes := by simp [pairs, TagAttributes.bare, QName.bare, Function.comp_def]
  have hopen : b.openElement? (.bare name) (.bare attributes) = some (b.opened name (Dict.ofList pairs) []) := by
    refine if_pos (Bool.and_eq_true_iff.mpr ⟨rfl, List.all_eq_true.mpr fun proper hproper => ?_⟩)
    obtain ⟨pair, -, rfl⟩ := List.mem_map.mp hproper
    rfl
  rw [hopen, hpairs, Dict.ofList_of_sorted h]

theorem closeElement?_opened (children : List Xml) :
    (b.opened name attributes children).closeElement? (.bare name)
      = some (b.put (.element name attributes children)) := by
  rw [closeElement?, opened]
  simp only [if_true, List.reverse_reverse]
  rfl

theorem put_opened (children : List Xml) (x : Xml) :
    (b.opened name attributes children).put x = b.opened name attributes (children ++ [x]) := by
  simp [opened, put]

theorem Rests.opened (h : b.Rests) (name : String) (attributes : List (String × String)) (children : List Xml) :
    (b.opened name attributes children).Rests :=
  ⟨h.run, h.isBlank⟩

end Builder

def LegibleAttributes (attributes : List (String × String)) : Prop :=
  ∀ pair ∈ attributes, isBare pair.1.toList = true ∧ pair.1 ≠ "xmlns"
    ∧ pair.2.toList.all Version.one.allows = true

theorem legibleAttributes_append {attributes' : List (String × String)} :
    LegibleAttributes (attributes ++ attributes') ↔ LegibleAttributes attributes ∧ LegibleAttributes attributes' :=
  List.forall_mem_append

/-- An element that can be read back: it holds one text or only elements. -/
inductive Legible : Xml → Prop where
  | leaf {name : String} {attributes : List (String × String)} {chars : String} (hname : isBare name.toList = true)
    (hattributes : LegibleAttributes attributes) (hchars : chars.toList.all Version.one.allows = true) :
    Legible (.element name attributes [.text chars])
  | branch {name : String} {attributes : List (String × String)} {children : List Xml}
    (hname : isBare name.toList = true) (hattributes : LegibleAttributes attributes)
    (hchildren : ∀ x ∈ children, Legible x) : Legible (.element name attributes children)

def isBlankText (s : String) : Bool := s.toList.all isSpace

def isBlank : Xml → Bool
  | .text chars => isBlankText chars
  | .element .. => false

mutual

def dropBlanks : Xml → Xml
  | .text chars => .text chars
  | .element name attributes children => .element name attributes (dropBlanksIn children)

def dropBlanksIn : List Xml → List Xml
  | [] => []
  | x :: rest => if x.isBlank then dropBlanksIn rest else dropBlanks x :: dropBlanksIn rest

end

theorem dropBlanksIn_element {name : String} {children : List Xml} :
    dropBlanksIn [.element name attributes children] = [.element name attributes (dropBlanksIn children)] := by
  rw [dropBlanksIn, isBlank, if_neg Bool.false_ne_true, dropBlanksIn, dropBlanks]

theorem dropBlanksIn_text {chars : String} :
    dropBlanksIn [.text chars] = if isBlankText chars then [] else [.text chars] := by
  rw [dropBlanksIn, isBlank, dropBlanksIn, dropBlanks]

theorem dropBlanksIn_append (xs ys : List Xml) : dropBlanksIn (xs ++ ys) = dropBlanksIn xs ++ dropBlanksIn ys := by
  induction xs with
  | nil =>
    rw [dropBlanksIn]
    rfl
  | cons x xs ih =>
    rw [List.cons_append, dropBlanksIn, dropBlanksIn, ih]
    split <;> rfl

theorem dropBlanksIn_map {α : Type} {l : List α} {f g : α → Xml} (h : ∀ a ∈ l, dropBlanksIn [f a] = [g a]) :
    dropBlanksIn (l.map f) = l.map g := by
  induction l with
  | nil =>
    rw [List.map_nil, dropBlanksIn]
    rfl
  | cons a l ih =>
    obtain ⟨ha, hl⟩ := List.forall_mem_cons.mp h
    rw [List.map_cons, List.map_cons, ← List.singleton_append, dropBlanksIn_append, ha, ih hl]
    rfl

namespace Stage

variable {b : Builder} {g : Stage} {name : String} {attributes : List (String × String)}

theorem reads_startTag (hmode : g.mode = .start ∨ g.mode = .outside) (hname : isBare name.toList = true)
    (hattributes : LegibleAttributes attributes) (hsorted : Sorted attributes) :
    ∃ g', Reads g ("<" ++ name ++ attributesText attributes).toList g'
      ∧ EndsTag g' g.builder.endRun (.bare name) (.bare attributes) := by
  obtain ⟨g', hreads, hends⟩ := reads_attributes (endsTag_tagName hname) hsorted hattributes
  refine ⟨g', ?_, hends⟩
  rw [toList_append, toList_append]
  exact (reads_tagName hmode hname).append hreads

theorem reads_tagClose (hg : EndsTag g b (.bare name) (.bare attributes)) (hsorted : Sorted attributes) :
    Reads g ['>'] (outside (b.opened name attributes [])) :=
  reads_mark (by decide) (hg.close _ (Builder.openElement?_bare hsorted))

theorem reads_emptyTagClose (hg : EndsTag g b (.bare name) (.bare attributes)) (hsorted : Sorted attributes) :
    Reads g [' ', '/', '>'] (outside (b.put (.element name attributes []))) := by
  have hblank : Reads g [' '] _ := reads_mark (by decide) hg.blank
  refine hblank.append ⟨[.emptyTagClose], Scanner.scans_pair rfl rfl, .single fun s => ?_⟩
  show (b.openElement? (.bare name) (.bare attributes) >>= _) = _
  rw [Builder.openElement?_bare hsorted]
  show (Builder.closeElement? _ (.bare name) >>= _) = _
  rw [Builder.closeElement?_opened]
  rfl

theorem reads_endTag {b' : Builder} {children : List Xml} (hname : isBare name.toList = true)
    (hb : b'.endRun = b.opened name attributes children) :
    Reads (outside b') ('<' :: '/' :: (name.toList ++ ['>']))
      (outside (b.put (.element name attributes children))) := by
  have hopen : Reads (outside b') ['<', '/'] ⟨.endTagName [], false, b.opened name attributes children⟩ := by
    refine ⟨[.endTagOpen], Scanner.scans_pair rfl rfl, .single fun s => ?_⟩
    show (if b'.endRun.isOutermost = true then none else some (reader ⟨.endTagName [], false, b'.endRun⟩ s)) = _
    rw [hb]
    rfl
  have hrun : Reads ⟨.endTagName [], false, b.opened name attributes children⟩ name.toList
      ⟨.endTagName name.toList.reverse, false, b.opened name attributes children⟩ := by
    refine ⟨_, scans_bare (all_isBareChar hname), takesAll_name (· = .tagClose)
      (fun seen => ⟨.endTagName seen, false, b.opened name attributes children⟩) hname ?_⟩
    intro seen c _ hread s
    show (readName? _ seen (.char c) >>= _) = _
    rw [hread]
    rfl
  have hclose : Reads ⟨.endTagName name.toList.reverse, false, b.opened name attributes children⟩ ['>']
      (outside (b.put (.element name attributes children))) := by
    refine reads_mark (by decide) fun s => ?_
    show (readName? _ name.toList.reverse .tagClose >>= _) = _
    rw [readName?_mark hname, ofList_toList]
    · show Option.map _ ((b.opened name attributes children).closeElement? _) = _
      rw [Builder.closeElement?_opened]
      rfl
    · nofun
    · rfl
  exact hopen.append (hrun.append hclose)

theorem reads_blanks (hb : b.isOutermost = false) (hcs : cs.all isSpace = true) :
    Reads (outside b) cs (outside (cs.foldl Builder.push b)) := by
  induction cs generalizing b with
  | nil => exact ⟨[], .nil _, .nil _⟩
  | cons c cs ih =>
    obtain ⟨hc, hcs⟩ := Bool.and_eq_true_iff.mp hcs
    have hspace : c = ' ' ∨ c = '\t' ∨ c = '\n' ∨ c = '\r' := by simpa [isSpace, or_assoc] using hc
    have hfirst : Reads (outside b) [c] (outside (b.push c)) := by
      rcases hspace with rfl | rfl | rfl | rfl <;>
        exact reads_mark (by decide) (takes_push hb (by decide) (by decide))
    exact hfirst.append (@ih (b.push c) hb hcs)

theorem isSpace_lineStart (level : Nat) : (lineStart level).toList.all isSpace = true := by
  rw [lineStart, String.toList_ofList, List.all_cons, List.all_replicate]
  simp [isSpace]

theorem reads_lineStart (level : Nat) (hb : b.isOutermost = false) :
    Reads (outside b) (lineStart level).toList (outside ((lineStart level).toList.foldl Builder.push b)) :=
  reads_blanks hb (isSpace_lineStart level)

theorem endRun_lineStart (level : Nat) (hb : b.Rests) :
    ((lineStart level).toList.foldl Builder.push b).endRun = b := by
  rw [hb.endRun_foldl_push, if_pos (isSpace_lineStart level)]

end Stage

theorem endsInElement_of_legible {x : Xml} {xs : List Xml} (h : ∀ y ∈ x :: xs, y.Legible) :
    endsInElement (x :: xs) = true := by
  induction xs generalizing x with
  | nil =>
    cases h x List.mem_cons_self with
    | leaf hname hattributes hchars => rfl
    | branch hname hattributes hchildren => rfl
  | cons y ys ih =>
    have hrest := ih fun z hz => h z (List.mem_cons_of_mem x hz)
    cases x with
    | element name attributes children => exact hrest
    | text chars => exact hrest

theorem reads_leaf {g : Stage} {name chars : String}
    (hmode : g.mode = .start ∨ g.mode = .outside) (hname : isBare name.toList = true)
    (hattributes : LegibleAttributes attributes) (hsorted : Sorted attributes)
    (hchars : chars.toList.all Version.one.allows = true) (level : Nat) :
    g.Reads (renderAt level (.element name attributes [.text chars])).toList
      (.outside (g.builder.endRun.put (.element name attributes (dropBlanksIn [.text chars])))) := by
  have htext : (renderAt level (.element name attributes [.text chars])).toList
      = ("<" ++ name ++ attributesText attributes).toList
        ++ (['>'] ++ (chars.toList.flatMap textChar ++ '<' :: '/' :: (name.toList ++ ['>']))) := by
    simp [renderAt, renderChildren, endsInElement]
  rw [htext]
  obtain ⟨g', hstart, hends⟩ := Stage.reads_startTag hmode hname hattributes hsorted
  refine hstart.append ((Stage.reads_tagClose hends hsorted).append ?_)
  refine Stage.reads_plain (plain_text _) (by decide) (Stage.takesAll_text rfl hchars) (Stage.reads_endTag hname ?_)
  rw [((Builder.rests_endRun g.builder).opened name attributes []).endRun_foldl_push, ofList_toList]
  rw [dropBlanksIn_text]
  show (if isBlankText chars = true then _ else _) = _
  split
  · rfl
  · exact Builder.put_opened [] _

mutual

theorem reads_renderAt (level : Nat) : (x : Xml) → x.Legible → x.Ordered → {g : Stage} →
    (g.mode = .start ∨ g.mode = .outside) →
    g.Reads (renderAt level x).toList (.outside (g.builder.endRun.put x.dropBlanks))
  | .text chars, h, _, _, _ => nomatch h
  | .element name attributes children, h, hordered, g, hmode => by
    have hsorted := hordered.attributes
    rw [dropBlanks]
    cases h with
    | leaf hname hattributes hchars => exact reads_leaf hmode hname hattributes hsorted hchars level
    | branch hname hattributes hchildren =>
      obtain ⟨g', hstart, hends⟩ := Stage.reads_startTag hmode hname hattributes hsorted
      have hrests := Builder.rests_endRun g.builder
      cases children with
      | nil =>
        rw [renderAt, toList_append, dropBlanksIn]
        exact hstart.append (Stage.reads_emptyTagClose hends hsorted)
      | cons child rest =>
        have htext : (renderAt level (.element name attributes (child :: rest))).toList
            = ("<" ++ name ++ attributesText attributes).toList ++ (['>']
              ++ ((renderChildren (level + 1) (child :: rest)).toList
                ++ ((lineStart level).toList ++ '<' :: '/' :: (name.toList ++ ['>'])))) := by
          simp [renderAt, endsInElement_of_legible hchildren]
        have hchildren := reads_renderChildren (level + 1) (child :: rest) hchildren hordered.children
          name attributes [] hrests
        have hclose := Stage.reads_endTag hname
          (Stage.endRun_lineStart level (hrests.opened name attributes (dropBlanksIn (child :: rest))))
        rw [htext]
        refine hstart.append ((Stage.reads_tagClose hends hsorted).append (hchildren.append ?_))
        exact (Stage.reads_lineStart level rfl).append hclose

theorem reads_renderChildren (level : Nat) : (xs : List Xml) → (∀ x ∈ xs, x.Legible) → (∀ x ∈ xs, x.Ordered) →
    {b : Builder} → (name : String) → (attributes : List (String × String)) → (children : List Xml) → b.Rests →
    Stage.Reads (.outside (b.opened name attributes children)) (renderChildren level xs).toList
      (.outside (b.opened name attributes (children ++ dropBlanksIn xs)))
  | [], _, _, b, name, attributes, children, _ => by
    rw [dropBlanksIn, List.append_nil]
    exact ⟨[], .nil _, .nil _⟩
  | .text chars :: rest, h, _, _, _, _, _, _ => nomatch h _ List.mem_cons_self
  | .element name' attributes' children' :: rest, h, hordered, b, name, attributes, children, hb => by
    obtain ⟨hx, hrest⟩ := List.forall_mem_cons.mp h
    obtain ⟨hxordered, hrestordered⟩ := List.forall_mem_cons.mp hordered
    let x : Xml := .element name' attributes' children'
    let indented := (lineStart level).toList.foldl Builder.push (b.opened name attributes children)
    have hindented : indented.endRun = b.opened name attributes children :=
      Stage.endRun_lineStart level (hb.opened name attributes children)
    have hfirst : Stage.Reads (.outside indented) (renderAt level x).toList
        (.outside (b.opened name attributes (children ++ [x.dropBlanks]))) := by
      rw [← Builder.put_opened, ← hindented]
      exact reads_renderAt level x hx hxordered (.inr rfl)
    have hafter := reads_renderChildren level rest hrest hrestordered name attributes (children ++ [x.dropBlanks]) hb
    have hdrop : dropBlanksIn (x :: rest) = [x.dropBlanks] ++ dropBlanksIn rest := by
      rw [← List.singleton_append, dropBlanksIn_append, dropBlanksIn_element, dropBlanks]
    rw [List.append_assoc, ← hdrop] at hafter
    rw [renderChildren, toList_append, toList_append, List.append_assoc]
    · exact (Stage.reads_lineStart level rfl).append (hfirst.append hafter)
    · nofun

end

theorem parse?_render {x : Xml} (h : x.Legible) (hordered : x.Ordered) : parse? x.render = some x.dropBlanks := by
  have hstart : ∃ cs, x.render.toList = '<' :: cs := by
    cases x with
    | text chars => nomatch h
    | element name attributes children => cases children <;> simp [render, renderAt]
  obtain ⟨cs, hcs⟩ := hstart
  have hreads := (@reads_renderAt 0 x h hordered ⟨.start, true, .start⟩ (.inl rfl)).foldlM_read?
  have htext : (renderAt 0 x).toList = '<' :: cs := hcs
  rw [htext] at hreads
  rw [parse?, hcs]
  show (('<' :: cs).foldlM Reader.read? (.start false) >>= _) = _
  rw [show Reader.start false = Stage.reader ⟨.start, true, .start⟩ .start from rfl, hreads]
  rfl

end Blockwork.Xml
