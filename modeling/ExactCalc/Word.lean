/-!
# Machine Words

The few places where numbers of any size meet machine integers.

An exponent is read as a signed word of 64 bits and judged by its modulus. The
least word has no modulus among the words. Asking for it overflows, and the
calculation breaks down there: it has neither a result nor an error to tell of.

A number of decimal places is a size, an unsigned word of 64 bits, and a
calculation that needs more of them breaks down as well. But a power of ten takes
its exponent as a count, an unsigned word of 32 bits, to which a larger number is
cut down silently.

## Main definitions

* `Overflow`, `Checked`: A calculation that may break down.
* `Word.least`, `Word.greatest`: The bounds of signed words.
* `Word.signed?`: A whole number as a signed word.
* `Word.modulus`: The modulus of a signed word.
* `Word.size`: A number as a size.
* `Word.count`: A number cut down to a count.

## Theorems

* `signed?_eq_some`: The whole numbers that are words.
* `modulus_of_ne_least`: All words but one have a modulus.
* `size_eq_ok`, `size_of_le`: The numbers that are sizes.
* `count_of_lt`: A count is kept as it is.
* `bind_eq_ok`, `bind_eq_error`: How two calculations one after the other end.
* `map_eq_ok`, `map_eq_error`: How a calculation ends whose result is changed.
-/

namespace ExactCalc

/-- A result that does not fit its machine integer. -/
inductive Overflow where
  /-- The modulus of the least signed word. -/
  | modulus
  /-- A number that is no size. -/
  | size
  deriving DecidableEq, Repr

/-- A calculation that breaks down where a result does not fit. -/
abbrev Checked := Except Overflow

namespace Word

/-- The least signed word. -/
def least : Int := -0x8000000000000000

/-- The greatest signed word. -/
def greatest : Int := 0x7fffffffffffffff

/-- A whole number as a signed word, if it is one. -/
def signed? (n : Int) : Option Int := if least ≤ n ∧ n ≤ greatest then some n else none

/-- The modulus of a signed word. -/
def modulus (n : Int) : Checked Nat := if n = least then .error .modulus else .ok n.natAbs

/-- How many sizes there are. -/
def sizes : Nat := 0x10000000000000000

/-- A number as a size. -/
def size (n : Nat) : Checked Nat := if n < sizes then .ok n else .error .size

/-- How many counts there are. -/
def counts : Nat := 0x100000000

/-- A number cut down to a count. -/
def count (n : Nat) : Nat := n % counts

@[simp]
theorem signed?_eq_some {n m : Int} : signed? n = some m ↔ n = m ∧ least ≤ n ∧ n ≤ greatest := by
  unfold signed?
  by_cases h : least ≤ n ∧ n ≤ greatest
  · rw [if_pos h, Option.some.injEq]
    exact (and_iff_left h).symm
  · rw [if_neg h]
    exact ⟨nofun, fun hm => absurd hm.2 h⟩

theorem modulus_of_ne_least {n : Int} (h : n ≠ least) : modulus n = .ok n.natAbs := if_neg h

@[simp] theorem size_eq_ok {n m : Nat} : size n = .ok m ↔ n < sizes ∧ n = m := by
  unfold size
  by_cases h : n < sizes
  · rw [if_pos h, Except.ok.injEq]
    exact (and_iff_right h).symm
  · rw [if_neg h]
    exact ⟨nofun, fun hm => absurd hm.1 h⟩

theorem size_of_le {n : Nat} (h : sizes ≤ n) : size n = .error .size := if_neg (Nat.not_lt.mpr h)

theorem counts_lt_sizes : counts < sizes := by decide

theorem count_of_lt {n : Nat} (h : n < counts) : count n = n := Nat.mod_eq_of_lt h

theorem count_le (n : Nat) : count n ≤ n := Nat.mod_le n counts

@[simp] theorem count_count (n : Nat) : count (count n) = count n := Nat.mod_mod n counts

theorem count_mul_count (m n : Nat) : count (m * count n) = count (m * n) :=
  Nat.mul_mod_mod m n counts

end Word

section Sequences

variable {ε α β : Type} {r : Except ε α} {f : α → Except ε β}

@[simp, grind =] theorem bind_eq_ok {b : β} : (r >>= f) = .ok b ↔ ∃ a, r = .ok a ∧ f a = .ok b := by
  cases r with
  | error e => exact ⟨nofun, fun ⟨_, ha, _⟩ => nomatch ha⟩
  | ok a => exact ⟨fun h => ⟨a, rfl, h⟩, fun ⟨_, ha, h⟩ => Except.ok.inj ha ▸ h⟩

@[simp, grind =] theorem bind_eq_error {e : ε} :
    (r >>= f) = .error e ↔ r = .error e ∨ ∃ a, r = .ok a ∧ f a = .error e := by
  cases r with
  | error e' =>
      refine ⟨fun h => .inl (congrArg Except.error (Except.error.inj h)), ?_⟩
      rintro (h | ⟨a, ha, -⟩)
      · exact congrArg Except.error (Except.error.inj h)
      · cases ha
  | ok a =>
      refine ⟨fun h => .inr ⟨a, rfl, h⟩, ?_⟩
      rintro (h | ⟨b, hb, h⟩)
      · cases h
      · exact Except.ok.inj hb ▸ h

@[simp, grind =]
theorem map_eq_ok {g : α → β} {b : β} : r.map g = .ok b ↔ ∃ a, r = .ok a ∧ g a = b := by
  cases r <;> simp [Except.map]

@[simp, grind =] theorem map_eq_error {g : α → β} {e : ε} : r.map g = .error e ↔ r = .error e := by
  cases r <;> simp [Except.map]

end Sequences

end ExactCalc
