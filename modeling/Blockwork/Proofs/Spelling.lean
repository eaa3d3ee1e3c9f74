import Blockwork.Proofs.Precedence

/-! # Texts of trees

A text may stand before others, and is cut into the same tokens there if none of its words or numbers goes on in what
follows.
-/

namespace Blockwork.Precedence

set_option autoImplicit false

/-- How texts are cut into tokens, and how tokens are read. What follows an opening parenthesis may change how it is
taken, which `opened` says. -/
structure Language (α β υ : Type) where
  isWordChar : Char → Bool
  scan : List Char → Option (List (Token α))
  opened : List (Token α) → List (Token α)
  table : Table β υ

namespace Language

variable {α β υ : Type}

/-- Blanks, commas and parentheses divide a text, and a parenthesis before an operand is taken as it is. -/
structure Lawful (L : Language α β υ) : Prop where
  table : L.table.Lawful
  divides : ∀ c ∈ [' ', ',', '(', ')'], L.isWordChar c = false
  scan_nil : L.scan [] = some []
  scan_space : ∀ cs, L.scan (' ' :: cs) = L.scan cs
  scan_comma : ∀ cs, L.scan (',' :: cs) = (L.scan cs).map (.comma :: ·)
  scan_open : ∀ cs, L.scan ('(' :: cs) = (L.scan cs).map L.opened
  scan_close : ∀ cs, L.scan (')' :: cs) = (L.scan cs).map (.closes .round :: ·)
  opened_cons : ∀ token rest, (∀ s, token = .sign s → (L.table.unary? s).isSome = true) →
    L.opened (token :: rest) = .opens .round :: token :: rest

def Divides (L : Language α β υ) (rest : List Char) : Prop :=
  ∀ c, rest.head? = some c → L.isWordChar c = false

def Ends (L : Language α β υ) (rest : List Char) : Prop :=
  ∀ c, rest.head? = some c → L.isWordChar c = false ∧ c ≠ '.'

def Cuts (L : Language α β υ) (text : String) (tokens : List (Token α)) : Prop :=
  ∀ rest, L.Ends rest → L.scan (text.toList ++ rest) = (L.scan rest).map (tokens ++ ·)

def Spells (L : Language α β υ) (n : Nat) (text : String) (t : Tree α β υ) : Prop :=
  ∃ tokens, L.table.Reads n tokens t ∧ L.Cuts text tokens

/-- A text is read as a tree, wherever an operand may stand, also before a dot or a bracket. -/
def Names (L : Language α β υ) (text : String) (t : Tree α β υ) : Prop :=
  ∃ tokens, L.table.Completes tokens t ∧
    ∀ rest, L.Divides rest → L.scan (text.toList ++ rest) = (L.scan rest).map (tokens ++ ·)

variable {L : Language α β υ} {n : Nat} {text text' : String} {t t' : Tree α β υ}

variable {c : Char} {texts : List String} {items : List (Tree α β υ)}

theorem divides_cons (h : L.isWordChar c = false) (rest : List Char) : L.Divides (c :: rest) := by
  intro d hd
  rw [List.head?_cons, Option.some.injEq] at hd
  exact hd ▸ h

theorem ends_nil : L.Ends [] := by
  intro c hc
  cases hc

theorem ends_cons (h : L.isWordChar c = false) (hdot : c ≠ '.') (rest : List Char) : L.Ends (c :: rest) := by
  intro d hd
  rw [List.head?_cons, Option.some.injEq] at hd
  subst hd
  exact ⟨h, hdot⟩

theorem Lawful.ends (hL : L.Lawful) (hc : c ∈ [' ', ',', '(', ')']) (rest : List Char) : L.Ends (c :: rest) := by
  apply ends_cons (hL.divides c hc)
  rintro rfl
  exact absurd hc (by decide)

theorem Spells.mono {m : Nat} (h : L.Spells n text t) (hmn : m ≤ n) : L.Spells m text t := by
  obtain ⟨tokens, hreads, hcuts⟩ := h
  exact ⟨tokens, hreads.mono hmn, hcuts⟩

theorem Names.spells (h : L.Names text t) : L.Spells n text t := by
  obtain ⟨tokens, hcompletes, hscan⟩ := h
  refine ⟨tokens, hcompletes.reads, ?_⟩
  intro rest hrest
  exact hscan rest fun c hc => (hrest c hc).1

theorem parse?_of_spells (hL : L.Lawful) (h : L.Spells n text t) :
    (L.scan text.toList).bind L.table.parse? = some t := by
  obtain ⟨tokens, hreads, hcuts⟩ := h
  have htokens : L.scan text.toList = some tokens := by
    have hwhole := hcuts [] ends_nil
    rw [List.append_nil, hL.scan_nil, Option.map_some, List.append_nil] at hwhole
    exact hwhole
  rw [htokens, Option.bind_some]
  exact Table.parse?_of_reads hreads

/-! ## Operators -/

theorem spells_unary {before : String} (sign : String) {op : υ} (hs : L.table.unary? sign = some op)
    (hscan : ∀ rest, L.scan (before.toList ++ (text.toList ++ rest)) =
      (L.scan (text.toList ++ rest)).map (.sign sign :: ·))
    (h : L.Spells (L.table.level op) text t) : L.Spells (L.table.level op) (before ++ text) (.unary op t) := by
  obtain ⟨tokens, hreads, hcuts⟩ := h
  refine ⟨.sign sign :: tokens, Table.reads_unary hs hreads, ?_⟩
  intro rest hrest
  rw [String.toList_append, List.append_assoc, hscan, hcuts rest hrest, Option.map_map]
  rfl

theorem spells_binary (hL : L.Lawful) {sign : String} {op : β} (hs : L.table.binary? sign = some op)
    (hscan : ∀ cs, L.scan (sign.toList ++ ' ' :: cs) = (L.scan (' ' :: cs)).map (.sign sign :: ·))
    (hn : n ≤ (L.table.binding op).level ∧ n ≤ (L.table.binding op).right)
    (h : L.Spells (L.table.binding op).left text t) (h' : L.Spells (L.table.binding op).right text' t') :
    L.Spells n (text ++ " " ++ sign ++ " " ++ text') (.binary op t t') := by
  obtain ⟨tokens, hreads, hcuts⟩ := h
  obtain ⟨tokens', hreads', hcuts'⟩ := h'
  refine ⟨tokens ++ .sign sign :: tokens', Table.reads_binary hL.table hs hn hreads hreads', ?_⟩
  intro rest hrest
  have hchars : (text ++ " " ++ sign ++ " " ++ text').toList ++ rest =
      text.toList ++ ' ' :: (sign.toList ++ ' ' :: (text'.toList ++ rest)) := by
    simp
  rw [hchars, hcuts _ (hL.ends (by decide) _), hL.scan_space, hscan, hL.scan_space, hcuts' rest hrest]
  simp [Function.comp_def]

theorem spells_sum (hL : L.Lawful) (op : β) (hs : L.table.binary? "+" = some op)
    (hscan : ∀ cs, L.scan ("+".toList ++ ' ' :: cs) = (L.scan (' ' :: cs)).map (.sign "+" :: ·))
    (hn : (L.table.binding op).level ≤ (L.table.binding op).right)
    (hleft : (L.table.binding op).left = (L.table.binding op).level) (h : L.Spells (L.table.binding op).level text t)
    (hrest : List.Forall₂ (L.Spells (L.table.binding op).right) texts items) :
    L.Spells (L.table.binding op).level (" + ".intercalate (text :: texts)) (items.foldl (.binary op) t) := by
  induction hrest generalizing text t with
  | nil =>
    rw [String.intercalate_singleton]
    exact h
  | @cons text' t' texts items hnext _ ih =>
    have hsum : L.Spells (L.table.binding op).level (text ++ " " ++ "+" ++ " " ++ text') (.binary op t t') :=
      spells_binary hL hs hscan ⟨Nat.le_refl _, hn⟩ (hleft ▸ h) hnext
    have htext : " + ".intercalate (text :: text' :: texts) =
        " + ".intercalate ((text ++ " " ++ "+" ++ " " ++ text') :: texts) := by
      have hplus : text ++ " " ++ "+" ++ " " ++ text' = text ++ " + " ++ text' := by
        apply String.toList_inj.mp
        simp
      rw [hplus]
      cases texts with
      | nil => rw [String.intercalate_cons_cons, String.intercalate_singleton, String.intercalate_singleton]
      | cons text'' texts => simp only [String.intercalate_cons_cons, String.append_assoc]
    rw [htext]
    exact ih hsum

/-! ## Parentheses and calls -/

theorem opened_separated (hL : L.Lawful) {tokens : List (List (Token α))}
    (h : List.Forall₂ (L.table.Reads 0) tokens items) (rest : List (Token α)) :
    L.opened (Table.separated tokens ++ .closes .round :: rest) =
      .opens .round :: (Table.separated tokens ++ .closes .round :: rest) := by
  cases h with
  | nil =>
    apply hL.opened_cons
    intro s hs
    cases hs
  | @cons first t others items' hfirst hothers =>
    obtain ⟨token, more, rfl, htoken⟩ := hfirst.exists_cons
    cases others with
    | nil => exact hL.opened_cons token _ htoken
    | cons next others => exact hL.opened_cons token _ htoken

theorem names_parens (hL : L.Lawful) (h : L.Spells 0 text t) : L.Names ("(" ++ text ++ ")") t := by
  obtain ⟨tokens, hreads, hcuts⟩ := h
  refine ⟨.opens .round :: tokens ++ [.closes .round], Table.completes_group hreads, ?_⟩
  intro rest _
  have hchars : ("(" ++ text ++ ")").toList ++ rest = '(' :: (text.toList ++ ')' :: rest) := by
    simp
  have hopened : ∀ more, L.opened (tokens ++ .closes .round :: more) = .opens .round :: (tokens ++ .closes .round :: more) :=
    opened_separated hL (.cons hreads .nil)
  rw [hchars, hL.scan_open, hcuts _ (hL.ends (by decide) rest), hL.scan_close]
  simp [Function.comp_def, hopened]

theorem exists_tokens_items (hL : L.Lawful) (h : List.Forall₂ (L.Spells 0) texts items) :
    ∃ tokens, List.Forall₂ (L.table.Reads 0) tokens items ∧ L.Cuts (", ".intercalate texts) (Table.separated tokens) := by
  induction h with
  | nil =>
    refine ⟨[], .nil, ?_⟩
    intro rest _
    simp [Table.separated]
  | @cons text t texts items hhead hrest ih =>
    obtain ⟨tokens, hreads, hcuts⟩ := hhead
    obtain ⟨others, hothers, hcutsOthers⟩ := ih
    refine ⟨tokens :: others, .cons hreads hothers, ?_⟩
    intro rest hends
    cases hrest with
    | nil =>
      cases hothers
      rw [String.intercalate_singleton, hcuts rest hends, Table.separated]
    | @cons text' t' texts' items' hnext hmore =>
      cases hothers with
      | @cons tokens' u others' items' hnext' hmore' =>
        have hchars : (", ".intercalate (text :: text' :: texts')).toList ++ rest =
            text.toList ++ ',' :: ' ' :: ((", ".intercalate (text' :: texts')).toList ++ rest) := by
          rw [String.intercalate_cons_cons]
          simp
        rw [hchars, hcuts _ (hL.ends (by decide) _), hL.scan_comma, hL.scan_space, hcutsOthers rest hends,
          Table.separated]
        simp [Function.comp_def]

theorem names_call (hL : L.Lawful) {name : String} {function : Tree α β υ} (hname : L.Names name function)
    (h : List.Forall₂ (L.Spells 0) texts items) :
    L.Names (name ++ "(" ++ ", ".intercalate texts ++ ")") (.call function items) := by
  obtain ⟨names, hcompletes, hscan⟩ := hname
  obtain ⟨tokens, hreads, hcuts⟩ := exists_tokens_items hL h
  refine ⟨names ++ .opens .round :: Table.separated tokens ++ [.closes .round],
    Table.completes_call hcompletes hreads, ?_⟩
  intro rest _
  have hchars : (name ++ "(" ++ ", ".intercalate texts ++ ")").toList ++ rest =
      name.toList ++ '(' :: ((", ".intercalate texts).toList ++ ')' :: rest) := by
    simp
  rw [hchars, hscan _ (divides_cons (hL.divides '(' (by decide)) _), hL.scan_open,
    hcuts _ (hL.ends (by decide) rest), hL.scan_close]
  simp [Function.comp_def, opened_separated hL hreads]

end Language

end Blockwork.Precedence
