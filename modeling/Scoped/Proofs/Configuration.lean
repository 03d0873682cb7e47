import Mathlib.Data.List.Forall2
import Mathlib.Data.List.TakeWhile
import Mathlib.Data.Nat.Digits.Defs
import Scoped.Config
import Scoped.Proofs.Oversized

/-!
# Configurations

What a configuration is read from, said without the reader : which text is left when the white
space around it is gone (`Text.Trims`), which texts are numerals and what they denote
(`Config.Numeral`), and when a text is another one in lower case (`Text.Lowers`). From these,
`Config.Limits` and `Config.Names` say what a text sets, and the reader is exact for both :
`Config.depthOfText?_eq_some`, `Config.ofText?_eq_some`.

`Config.ofLookup_exact` is the statement for a whole configuration, for every lookup.
-/

namespace Scoped

/-! ## White space and letters -/

namespace Text

variable {cs t : List Char}

/-- The text is left of the first one when the white space at both ends is taken away. -/
structure Trims (cs t : List Char) : Prop where
  around : ∃ before after, cs = before ++ t ++ after ∧
    (∀ c ∈ before, isSpace c = true) ∧ ∀ c ∈ after, isSpace c = true
  head : ∀ c ∈ t.head?, isSpace c = false
  last : ∀ c ∈ t.getLast?, isSpace c = false

/-- White space at the front is dropped, up to a character that is none. -/
theorem dropWhile_append {before : List Char} (hbefore : ∀ c ∈ before, isSpace c = true)
    (ht : ∀ c ∈ t.head?, isSpace c = false) : (before ++ t).dropWhile isSpace = t := by
  rw [List.dropWhile_append_of_pos hbefore]
  cases t with
  | nil => rfl
  | cons c t => rw [List.dropWhile_cons_of_neg (by simpa using ht c rfl)]

theorem head?_dropWhile (cs : List Char) :
    ∀ c ∈ (cs.dropWhile isSpace).head?, isSpace c = false := by
  intro c hc
  have hhead := List.head?_dropWhile_not isSpace cs
  rw [hc] at hhead
  exact hhead

theorem trim_append {before after : List Char} (hbefore : ∀ c ∈ before, isSpace c = true)
    (hafter : ∀ c ∈ after, isSpace c = true) (hhead : ∀ c ∈ t.head?, isSpace c = false)
    (hlast : ∀ c ∈ t.getLast?, isSpace c = false) : trim (before ++ t ++ after) = t := by
  rw [trim, List.append_assoc]
  cases t with
  | nil =>
    have hall : ∀ c ∈ before ++ ([] ++ after), isSpace c = true := by
      intro c hc
      rcases List.mem_append.1 hc with hc | hc
      · exact hbefore c hc
      · exact hafter c hc
    rw [List.dropWhile_eq_nil_iff.2 hall]
    rfl
  | cons c t =>
    have hreverse : ∀ d ∈ (c :: t).reverse.head?, isSpace d = false := by
      rw [List.head?_reverse]
      exact hlast
    have hafter' : ∀ d ∈ after.reverse, isSpace d = true := by
      simpa using hafter
    rw [dropWhile_append (t := c :: t ++ after) hbefore hhead, List.reverse_append,
      dropWhile_append hafter' hreverse, List.reverse_reverse]

/-- Trimming a text takes the white space away, and no text but the trimmed one is left. -/
theorem trims_iff : Trims cs t ↔ t = trim cs := by
  constructor
  · rintro ⟨⟨before, after, rfl, hbefore, hafter⟩, hhead, hlast⟩
    exact (trim_append hbefore hafter hhead hlast).symm
  · rintro rfl
    have hfront := cs.takeWhile_append_dropWhile (p := isSpace)
    have hback := (cs.dropWhile isSpace).reverse.takeWhile_append_dropWhile (p := isSpace)
    have hsplit := congrArg List.reverse hback
    rw [List.reverse_reverse, List.reverse_append] at hsplit
    refine ⟨⟨cs.takeWhile isSpace, ((cs.dropWhile isSpace).reverse.takeWhile isSpace).reverse,
      ?_, List.all_eq_true.1 List.all_takeWhile, ?_⟩, ?_, ?_⟩
    · rw [trim, List.append_assoc, hsplit, hfront]
    · intro c hc
      exact List.all_eq_true.1 List.all_takeWhile c (List.mem_reverse.1 hc)
    · intro c hc
      refine head?_dropWhile cs c ?_
      rw [trim] at hc
      rw [← hsplit, List.head?_append, hc]
      rfl
    · intro c hc
      rw [trim, List.getLast?_reverse] at hc
      exact head?_dropWhile _ c hc

/-- The second character is the first one in lower case, as far as that is a letter of ASCII. -/
def LowersChar (c d : Char) : Prop :=
  if c.isUpper then d.toNat = c.toNat + 32 else d = c

theorem lowersChar_iff {c d : Char} : LowersChar c d ↔ c.toLower = d := by
  unfold LowersChar Char.toLower
  by_cases hc : c.isUpper = true
  · have hrange := of_decide_eq_true hc
    have hle : c.val.toNat ≤ 90 := UInt32.le_iff_toNat_le.1 hrange.2
    have hdistance : ('a'.val - 'A'.val).toNat = 32 := rfl
    have hlower : (c.val + ('a'.val - 'A'.val)).toNat = c.val.toNat + 32 := by
      rw [UInt32.toNat_add, hdistance]
      exact Nat.mod_eq_of_lt (by omega)
    rw [if_pos hc, dif_pos hrange, Char.ext_iff, ← UInt32.toNat_inj, hlower, eq_comm]
    rfl
  · rw [if_neg hc, dif_neg (fun hrange => hc (decide_eq_true hrange)), eq_comm]

/-- The second text is the first one in lower case. -/
def Lowers (t u : List Char) : Prop := List.Forall₂ LowersChar t u

theorem lowers_iff {t u : List Char} : Lowers t u ↔ t.map Char.toLower = u := by
  have hchar : LowersChar = fun c d => c.toLower = d := by
    funext c d
    exact propext lowersChar_iff
  rw [Lowers, hchar, ← List.forall₂_map_left_iff, List.forall₂_eq_eq_eq]

end Text

namespace Config

variable {t : List Char} {s : String} {n : Nat} {p : Redeclaration} {α : Type}

/-! ## The limit of the calls -/

/-- The text is a plus sign or none and then digits, at least one, which denote the number. -/
def Numeral (t : List Char) (n : Nat) : Prop :=
  ∃ sign ds, t = sign ++ ds ∧ (sign = [] ∨ sign = ['+']) ∧ ds ≠ [] ∧
    (∀ d ∈ ds, d.isDigit = true) ∧ n = Nat.ofDigits 10 (ds.reverse.map fun d => d.toNat - '0'.toNat)

/-- The text sets the limit : without the white space around it, it is a numeral for a positive
number that fits into 64 bits. -/
def Limits (s : String) (n : Nat) : Prop :=
  ∃ t, Text.Trims s.toList t ∧ Numeral t n ∧ 1 ≤ n ∧ n < UInt64.size

/-- A text without a plus sign at its front. -/
theorem unsigned_of_ne (h : t.head? ≠ some '+') : unsigned t = t := by
  unfold unsigned
  split
  · exact absurd rfl h
  · rfl

theorem numeral_iff : Numeral t n ↔
    unsigned t ≠ [] ∧ (∀ d ∈ unsigned t, d.isDigit = true) ∧
      n = Literal.digitsValue (unsigned t) := by
  simp only [Numeral, Literal.digitsValue_eq_ofDigits]
  constructor
  · rintro ⟨sign, ds, rfl, hsign, hne, hdigits, hn⟩
    have hunsigned : unsigned (sign ++ ds) = ds := by
      rcases hsign with rfl | rfl
      · refine unsigned_of_ne fun hplus => ?_
        exact absurd (hdigits '+' (List.mem_of_mem_head? hplus)) (by decide)
      · rfl
    rw [hunsigned]
    exact ⟨hne, hdigits, hn⟩
  · rintro ⟨hne, hdigits, hn⟩
    by_cases hplus : t.head? = some '+'
    · obtain ⟨ds, rfl⟩ := List.head?_eq_some_iff.1 hplus
      exact ⟨['+'], ds, rfl, .inr rfl, hne, hdigits, hn⟩
    · rw [unsigned_of_ne hplus] at hne hdigits hn
      exact ⟨[], t, rfl, .inl rfl, hne, hdigits, hn⟩

/-- The limit is read off the texts that set it, and off no others. -/
theorem depthOfText?_eq_some : depthOfText? s = some n ↔ Limits s n := by
  have htrims : Limits s n ↔ Numeral (Text.trim s.toList) n ∧ 1 ≤ n ∧ n < UInt64.size := by
    simp only [Limits, Text.trims_iff, exists_eq_left]
  rw [htrims, numeral_iff, depthOfText?]
  simp only [Bool.and_eq_true, Bool.not_eq_true', decide_eq_true_eq, List.isEmpty_eq_false_iff,
    List.all_eq_true, Option.ite_none_right_eq_some, Option.some.injEq]
  constructor
  · rintro ⟨⟨⟨⟨hne, hdigits⟩, hpos⟩, hlt⟩, rfl⟩
    exact ⟨⟨hne, hdigits, rfl⟩, hpos, hlt⟩
  · rintro ⟨⟨hne, hdigits, rfl⟩, hpos, hlt⟩
    exact ⟨⟨⟨⟨hne, hdigits⟩, hpos⟩, hlt⟩, rfl⟩

/-! ## The policy -/

/-- The text names the policy : it does so without the white space around it and in lower case. -/
def Names (s : String) (p : Redeclaration) : Prop :=
  ∃ t, Text.Trims s.toList t ∧ Text.Lowers t p.name.toList

theorem ofText?_eq_some : Redeclaration.ofText? s = some p ↔ Names s p := by
  have hname : Redeclaration.ofText? s = some p ↔ Redeclaration.normalize s = p.name := by
    unfold Redeclaration.ofText?
    split <;> cases p <;> simp_all [Redeclaration.name]
  simp only [hname, Names, Text.trims_iff, Text.lowers_iff, exists_eq_left]
  rw [Redeclaration.normalize, ← String.toList_inj, String.toList_ofList]

/-! ## Configurations -/

/-- The value is the one that the text of a variable sets, or the standard one where the variable is
missing or its text sets none. -/
def Given (sets : String → α → Prop) (text : Option String) (standard a : α) : Prop :=
  (∃ s, text = some s ∧ sets s a) ∨ (¬∃ s b, text = some s ∧ sets s b) ∧ a = standard

/-- A field is as given if its reader is exact. -/
theorem given_iff {sets : String → α → Prop} {read : String → Option α}
    (hread : ∀ s a, read s = some a ↔ sets s a) (text : Option String) (standard a : α) :
    (text.bind read).getD standard = a ↔ Given sets text standard a := by
  cases htext : text.bind read with
  | none =>
    have hnone : ¬∃ s b, text = some s ∧ sets s b := by
      rintro ⟨s, b, rfl, hs⟩
      rw [Option.bind_some, (hread s b).2 hs] at htext
      cases htext
    constructor
    · rintro rfl
      exact .inr ⟨hnone, rfl⟩
    · rintro (⟨s, hs⟩ | ⟨-, rfl⟩)
      · exact absurd ⟨s, a, hs⟩ hnone
      · rfl
  | some b =>
    obtain ⟨s, rfl, hs⟩ := Option.bind_eq_some_iff.1 htext
    constructor
    · rintro rfl
      exact .inl ⟨s, rfl, (hread s b).1 hs⟩
    · rintro (⟨s', heq, hs'⟩ | ⟨hnone, -⟩)
      · cases heq
        rw [(hread s a).2 hs'] at hs
        exact (Option.some.inj hs).symm
      · exact absurd ⟨s, b, rfl, (hread s b).1 hs⟩ hnone

/-- For every lookup the two fields of the configuration are as given by their variables, the limit
is positive, and each field depends on its own variable alone. -/
theorem ofLookup_exact (lookup : String → Option String) :
    (∀ n, (ofLookup lookup).maxCallDepth = n ↔
        Given Limits (lookup "IX_MAX_CALL_DEPTH") standard.maxCallDepth n) ∧
      (∀ p, (ofLookup lookup).redeclaration = p ↔
        Given Names (lookup "IX_REDECLARATION") standard.redeclaration p) ∧
      0 < (ofLookup lookup).maxCallDepth ∧
      ∀ other : String → Option String,
        (other "IX_MAX_CALL_DEPTH" = lookup "IX_MAX_CALL_DEPTH" →
          (ofLookup other).maxCallDepth = (ofLookup lookup).maxCallDepth) ∧
        (other "IX_REDECLARATION" = lookup "IX_REDECLARATION" →
          (ofLookup other).redeclaration = (ofLookup lookup).redeclaration) := by
  have hdepth : ∀ n, (ofLookup lookup).maxCallDepth = n ↔
      Given Limits (lookup "IX_MAX_CALL_DEPTH") standard.maxCallDepth n :=
    given_iff (fun _ _ => depthOfText?_eq_some) _ _
  refine ⟨hdepth, given_iff (fun _ _ => ofText?_eq_some) _ _, ?_, fun other => ⟨?_, ?_⟩⟩
  · rcases (hdepth _).1 rfl with ⟨s, -, t, -, -, hpos, -⟩ | ⟨-, hstandard⟩
    · exact hpos
    · rw [hstandard]
      decide
  · intro h
    simp only [ofLookup, maxCallDepthVar, h]
  · intro h
    simp only [ofLookup, redeclarationVar, h]

end Config

end Scoped
