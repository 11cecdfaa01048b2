import Mathlib.Algebra.Group.Int.Defs
import Mathlib.Algebra.Group.Nat.Defs
import Mathlib.Data.List.Basic

/-!
# Decimal numbers in text

A number is read as `strtol` does it: characters that count as space are skipped, a sign may follow, and the digits end
at the first other character. Text is cut into lines as `getline` does it: a separator ends a line, and after the last
one there is no empty line.
-/

namespace Aveo.Lib

/-- A number in decimal digits, with a sign if it is negative. -/
def decimal (z : Int) : List Char := if z < 0 then '-' :: Nat.toDigits 10 z.natAbs else Nat.toDigits 10 z.natAbs

/-- The number at the front of a text, and what follows it. -/
def scanNat (cs : List Char) : Option (Nat × List Char) :=
  if cs.takeWhile Char.isDigit = [] then none
  else some (Nat.ofDigitChars 10 (cs.takeWhile Char.isDigit) 0, cs.dropWhile Char.isDigit)

/-- The number with a sign that a text starts with after spaces, and what follows it. -/
def scanInt (space : Char → Bool) (cs : List Char) : Option (Int × List Char) :=
  match cs.dropWhile space with
  | '-' :: rest => (scanNat rest).map fun r => (-r.1, r.2)
  | '+' :: rest => (scanNat rest).map fun r => (r.1, r.2)
  | rest => (scanNat rest).map fun r => (r.1, r.2)

/-- White space in C. -/
def isSpace (c : Char) : Bool := c.toNat = 32 || (9 ≤ c.toNat && c.toNat ≤ 13)

/-- `strtol` with a `long` of 64 bits: the number, cut off at the ends of the type, and what follows it. -/
def strtol (cs : List Char) : Int × List Char :=
  match scanInt isSpace cs with
  | none => (0, cs)
  | some (z, rest) => (max (-2 ^ 63) (min (2 ^ 63 - 1) z), rest)

def lines (sep : Char) (cs : List Char) : List (List Char) :=
  if (cs.splitOn sep).getLast? = some [] then (cs.splitOn sep).dropLast else cs.splitOn sep

theorem isDigit_of_mem_toDigits {n : Nat} {c : Char} (h : c ∈ Nat.toDigits 10 n) : c.isDigit = true :=
  Nat.isDigit_of_mem_toDigits (by decide) (by decide) h

theorem scanNat_toDigits (n : Nat) {rest : List Char} (hrest : ∀ c, rest.head? = some c → c.isDigit = false) :
    scanNat (Nat.toDigits 10 n ++ rest) = some (n, rest) := by
  have hall : ∀ c ∈ Nat.toDigits 10 n, c.isDigit = true := fun c => isDigit_of_mem_toDigits
  have hnone : rest.takeWhile Char.isDigit = [] ∧ rest.dropWhile Char.isDigit = rest := by
    cases rest with
    | nil => exact ⟨rfl, rfl⟩
    | cons c cs =>
      have hc := hrest c rfl
      exact ⟨List.takeWhile_cons_of_neg (by simp [hc]), List.dropWhile_cons_of_neg (by simp [hc])⟩
  rw [scanNat, List.takeWhile_append_of_pos hall, List.dropWhile_append_of_pos hall, hnone.1, hnone.2, List.append_nil,
    if_neg Nat.toDigits_ne_nil, Nat.ofDigitChars_ten_toDigits]

/-- What was written is read back, up to the first character that is no digit. -/
theorem scanInt_decimal {space : Char → Bool} (hspace : ∀ c, space c = true → c.isDigit = false ∧ c ≠ '-') (z : Int)
    {rest : List Char} (hrest : ∀ c, rest.head? = some c → c.isDigit = false) :
    scanInt space (decimal z ++ rest) = some (z, rest) := by
  obtain ⟨d, ds, hd⟩ := List.exists_cons_of_ne_nil (Nat.toDigits_ne_nil (b := 10) (n := z.natAbs))
  have hdigit : d.isDigit = true := isDigit_of_mem_toDigits (hd ▸ List.mem_cons_self)
  have hdrop : ∀ {c cs}, (c.isDigit = true ∨ c = '-') → List.dropWhile space (c :: cs) = c :: cs := by
    intro c cs hc
    refine List.dropWhile_cons_of_neg fun hsp => ?_
    rcases hc with hc | hc
    · rw [(hspace c hsp).1] at hc
      cases hc
    · exact (hspace c hsp).2 hc
  have hscan := scanNat_toDigits z.natAbs hrest
  by_cases hz : z < 0
  · rw [decimal, if_pos hz, List.cons_append, scanInt, hdrop (.inr rfl)]
    simp only [hscan, Option.map_some, Option.some.injEq, Prod.mk.injEq, and_true]
    omega
  · rw [hd, List.cons_append] at hscan
    rw [decimal, if_neg hz, hd, List.cons_append, scanInt, hdrop (.inl hdigit)]
    split
    · rename_i heq
      cases heq
      cases hdigit
    · rename_i heq
      cases heq
      cases hdigit
    · simp only [hscan, Option.map_some, Option.some.injEq, Prod.mk.injEq, and_true]
      omega

theorem isDigit_of_isSpace {c : Char} (h : isSpace c = true) : c.isDigit = false ∧ c ≠ '-' := by
  unfold isSpace at h
  simp only [Bool.or_eq_true, decide_eq_true_eq, Bool.and_eq_true] at h
  constructor
  · rw [Bool.eq_false_iff]
    intro hdigit
    simp only [Char.isDigit, Bool.and_eq_true, decide_eq_true_eq, ge_iff_le, UInt32.le_iff_toNat_le] at hdigit
    change 48 ≤ c.toNat ∧ c.toNat ≤ 57 at hdigit
    omega
  · rintro rfl
    revert h
    decide

theorem scanInt_of_decimal (z : Int) {rest : List Char} (hrest : ∀ c, rest.head? = some c → c.isDigit = false) :
    scanInt isSpace (decimal z ++ rest) = some (z, rest) :=
  scanInt_decimal (fun _ => isDigit_of_isSpace) z hrest

theorem strtol_decimal {z : Int} (hlow : -2 ^ 63 ≤ z) (hhigh : z < 2 ^ 63) {rest : List Char}
    (hrest : ∀ c, rest.head? = some c → c.isDigit = false) : strtol (decimal z ++ rest) = (z, rest) := by
  simp only [strtol, scanInt_of_decimal z hrest, Prod.mk.injEq, and_true]
  omega

theorem length_decimal_le {z : Int} {k : Nat} (hk : 0 < k) (h : z.natAbs < 10 ^ k) : (decimal z).length ≤ k + 1 := by
  have hdigits := (Nat.length_toDigits_le_iff (b := 10) (by decide) hk).mpr h
  unfold decimal
  split
  · rw [List.length_cons]
    omega
  · omega

theorem not_mem_decimal {z : Int} {c : Char} (hdigit : c.isDigit = false) (hsign : c ≠ '-') : c ∉ decimal z := by
  have hnot : c ∉ Nat.toDigits 10 z.natAbs := fun hmem => by
    rw [isDigit_of_mem_toDigits hmem] at hdigit
    cases hdigit
  unfold decimal
  split
  · simp [hsign, hnot]
  · exact hnot

theorem decimal_ne_nil (z : Int) : decimal z ≠ [] := by
  unfold decimal
  split
  · exact List.cons_ne_nil _ _
  · exact Nat.toDigits_ne_nil

/-- Lines that were joined by separators are found again. -/
theorem lines_intercalate {sep : Char} {ls : List (List Char)} (hsep : ∀ l ∈ ls, sep ∉ l) (hne : ∀ l ∈ ls, l ≠ []) :
    lines sep ([sep].intercalate ls) = ls := by
  cases ls with
  | nil => simp [lines]
  | cons l ls =>
    rw [lines, List.splitOn_intercalate sep hsep (List.cons_ne_nil _ _), if_neg]
    intro hlast
    exact hne [] (List.mem_of_getLast? hlast) rfl

end Aveo.Lib
