/-!
Decimal digits of all scripts. Each script has its ten digits in one run, so a table of the zeros
is enough.
-/

namespace PhpTypes.Text

def digitZeros : List Nat :=
  [48, 1632, 1776, 1984, 2406, 2534, 2662, 2790, 2918, 3046, 3174, 3302, 3430, 3558, 3664, 3792,
   3872, 4160, 4240, 6112, 6160, 6470, 6608, 6784, 6800, 6992, 7088, 7232, 7248, 42528, 43216,
   43264, 43472, 43504, 43600, 44016, 65296, 66720, 68912, 69734, 69872, 69942, 70096, 70384,
   70736, 70864, 71248, 71360, 71472, 71904, 72016, 72784, 73040, 73120, 92768, 92864, 93008,
   120782, 120792, 120802, 120812, 120822, 123200, 123632, 125264, 130032]

/-- The value of a decimal digit of any script. -/
def digitValue? (c : Char) : Option Nat :=
  (digitZeros.find? fun z => z ≤ c.toNat && c.toNat < z + 10).map fun z => c.toNat - z

def isDigit (c : Char) : Bool := (digitValue? c).isSome

/-- Reads a run of digits, most significant first; `none` if some character is no digit below
the base. -/
def readDigits (base : Nat) (cs : List Char) : Option Nat :=
  cs.foldlM (fun n c => do
    let d ← digitValue? c
    if d < base then some (n * base + d) else none) 0

theorem digitValue?_lt {c : Char} {d : Nat} (h : digitValue? c = some d) : d < 10 := by
  simp only [digitValue?, Option.map_eq_some_iff] at h
  obtain ⟨z, hz, rfl⟩ := h
  have := List.find?_some hz
  simp only [Bool.and_eq_true, decide_eq_true_eq] at this
  omega

theorem digitValue?_digitChar : ∀ d < 10, digitValue? d.digitChar = some d := by decide

/-- A number is read back from its digits, in every base whose digits have their values. -/
theorem foldlM_toDigits {value? : Char → Option Nat} {base : Nat} (hbase : 1 < base)
    (hvalue : ∀ d < base, value? d.digitChar = some d) (n : Nat) :
    (Nat.toDigits base n).foldlM (fun n c => do
      let d ← value? c
      if d < base then some (n * base + d) else none) 0 = some n := by
  induction n using Nat.strongRecOn with
  | _ n ih =>
    by_cases h : n < base
    · rw [Nat.toDigits_of_lt_base h]
      simp [hvalue n h, h]
    · have hlast : n % base < base := Nat.mod_lt n (by omega)
      have hfirst := ih (n / base) (Nat.div_lt_self (by omega) hbase)
      rw [Nat.toDigits_of_base_le hbase (by omega), List.foldlM_append, hfirst]
      simp [hvalue _ hlast, hlast, Nat.div_add_mod']

/-- A number is read back from its decimal digits. -/
theorem readDigits_toDigits (n : Nat) : readDigits 10 (Nat.toDigits 10 n) = some n :=
  foldlM_toDigits (by decide) digitValue?_digitChar n

end PhpTypes.Text
