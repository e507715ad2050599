/-
# `SisOp.Lib.Sieve` — the sieve of a list of numbers

`sieve` keeps the head of a list, removes its multiples from the rest and goes on.
On the numbers of an interval that no smaller prime divides (`Sifted`) the head is
prime, and removing its multiples gives the same for a later interval, so that what
is kept are the primes of the interval in order (`sieve_eq_primes`).
-/
import Mathlib.Data.Nat.Prime.Basic
import Mathlib.Data.List.Sort

namespace SisOp.Lib

/-- The list without the multiples of `x`. -/
def strike (x : Nat) (xs : List Nat) : List Nat := xs.filter fun m => ¬ x ∣ m

theorem length_strike_le (x : Nat) (xs : List Nat) : (strike x xs).length ≤ xs.length :=
  List.length_filter_le _ _

theorem mem_strike {x m : Nat} {xs : List Nat} : m ∈ strike x xs ↔ m ∈ xs ∧ ¬ x ∣ m := by
  rw [strike, List.mem_filter, decide_eq_true_iff]

/-- The head, and the sieve of the others that it does not divide. -/
def sieve : List Nat → List Nat
  | [] => []
  | x :: xs => x :: sieve (strike x xs)
  termination_by l => l.length
  decreasing_by exact Nat.lt_succ_of_le (length_strike_le x xs)

/-- In order, the numbers from `a` to `n` that no prime below `a` divides. -/
structure Sifted (n a : Nat) (l : List Nat) : Prop where
  two_le : 2 ≤ a
  sorted : l.Pairwise (· < ·)
  mem_iff : ∀ m, m ∈ l ↔ a ≤ m ∧ m ≤ n ∧ ∀ q, q.Prime → q < a → ¬ q ∣ m

namespace Sifted

variable {n a x : Nat} {l xs : List Nat}

/-- All the numbers from 2 on. -/
theorem range (n : Nat) : Sifted n 2 (List.range' 2 (n - 1)) where
  two_le := le_refl 2
  sorted := List.pairwise_lt_range'
  mem_iff := by
    intro m
    rw [List.mem_range'_1]
    constructor
    · intro h
      refine ⟨h.1, by omega, ?_⟩
      intro q hq hlt
      exact absurd hq.two_le (by omega)
    · intro h
      omega

/-- The least prime factor of a number of the list is in the list. -/
theorem minFac_mem (h : Sifted n a l) {m : Nat} (hm : m ∈ l) : m.minFac ∈ l := by
  obtain ⟨ha, hn, hdvd⟩ := (h.mem_iff m).mp hm
  have h2 := h.two_le
  have hprime : m.minFac.Prime := Nat.minFac_prime (by omega)
  have hle : m.minFac ≤ m := Nat.minFac_le (by omega)
  refine (h.mem_iff _).mpr ⟨?_, by omega, ?_⟩
  · by_contra hlt
    exact hdvd _ hprime (by omega) (Nat.minFac_dvd m)
  · intro q hq hlt hd
    exact hdvd q hq hlt (hd.trans (Nat.minFac_dvd m))

theorem head_prime (h : Sifted n a (x :: xs)) : x.Prime := by
  have h2 := h.two_le
  have ha := ((h.mem_iff x).mp List.mem_cons_self).1
  have hprime : x.minFac.Prime := Nat.minFac_prime (by omega)
  rcases List.mem_cons.mp (h.minFac_mem List.mem_cons_self) with heq | hmem
  · rwa [heq] at hprime
  · have hlt := (List.pairwise_cons.mp h.sorted).1 _ hmem
    exact absurd (Nat.minFac_le (n := x) (by omega)) (by omega)

/-- A prime of the interval is in the list. -/
theorem prime_mem (h : Sifted n a l) {m : Nat} (hp : m.Prime) (ha : a ≤ m) (hn : m ≤ n) :
    m ∈ l := by
  refine (h.mem_iff m).mpr ⟨ha, hn, ?_⟩
  intro q hq hlt hd
  have heq : q = m := (Nat.prime_dvd_prime_iff_eq hq hp).mp hd
  omega

/-- Without the multiples of its head the list is sifted further. -/
theorem tail (h : Sifted n a (x :: xs)) :
    Sifted n (x + 1) (strike x xs) where
  two_le := by
    have := h.head_prime.two_le
    omega
  sorted := (List.pairwise_cons.mp h.sorted).2.filter _
  mem_iff := by
    intro m
    have hx := (h.mem_iff x).mp List.mem_cons_self
    rw [mem_strike]
    constructor
    · rintro ⟨hm, hnd⟩
      have hlt := (List.pairwise_cons.mp h.sorted).1 m hm
      obtain ⟨-, hn, hdvd⟩ := (h.mem_iff m).mp (List.mem_cons_of_mem x hm)
      refine ⟨hlt, hn, ?_⟩
      intro q hq hqx hd
      rcases Nat.lt_or_ge q a with hqa | hqa
      · exact hdvd q hq hqa hd
      -- a prime between `a` and `x` is in the list, so it is `x`
      have hmem := h.prime_mem hq hqa (by omega)
      rcases List.mem_cons.mp hmem with rfl | hmem
      · exact hnd hd
      · have := (List.pairwise_cons.mp h.sorted).1 q hmem
        omega
    · rintro ⟨ha, hn, hdvd⟩
      have hmem : m ∈ x :: xs := by
        refine (h.mem_iff m).mpr ⟨by omega, hn, ?_⟩
        intro q hq hlt
        exact hdvd q hq (by omega)
      refine ⟨(List.mem_cons.mp hmem).resolve_left (by omega), ?_⟩
      exact hdvd x h.head_prime (by omega)

end Sifted

/-- What the sieve keeps are the primes. -/
theorem mem_sieve {n a : Nat} {l : List Nat} (h : Sifted n a l) (m : Nat) :
    m ∈ sieve l ↔ a ≤ m ∧ m ≤ n ∧ m.Prime := by
  induction l using sieve.induct generalizing a with
  | case1 =>
    simp only [sieve, List.not_mem_nil, false_iff]
    rintro ⟨ha, hn, hp⟩
    exact List.not_mem_nil (h.prime_mem hp ha hn)
  | case2 x xs ih =>
    have hx := (h.mem_iff x).mp List.mem_cons_self
    rw [sieve, List.mem_cons, ih h.tail]
    constructor
    · rintro (rfl | ⟨ha, hn, hp⟩)
      · exact ⟨hx.1, hx.2.1, h.head_prime⟩
      · exact ⟨by omega, hn, hp⟩
    · rintro ⟨ha, hn, hp⟩
      rcases List.mem_cons.mp (h.prime_mem hp ha hn) with rfl | hmem
      · exact Or.inl rfl
      · exact Or.inr ⟨(List.pairwise_cons.mp h.sorted).1 m hmem, hn, hp⟩

theorem sieve_sorted {n a : Nat} {l : List Nat} (h : Sifted n a l) :
    (sieve l).Pairwise (· < ·) := by
  induction l using sieve.induct generalizing a with
  | case1 => simp [sieve]
  | case2 x xs ih =>
    rw [sieve]
    refine List.Pairwise.cons ?_ (ih h.tail)
    intro m hm
    exact ((mem_sieve h.tail m).mp hm).1

/-- The sieve of `2, .., n`. -/
theorem sieve_eq_primes (n : Nat) :
    sieve (List.range' 2 (n - 1)) = (List.range (n + 1)).filter (fun m => m.Prime) := by
  have h := Sifted.range n
  refine List.Perm.eq_of_pairwise ?_ (sieve_sorted h)
    (List.pairwise_lt_range.filter _) ?_
  · intro x y _ _ hxy hyx
    omega
  · refine (List.perm_ext_iff_of_nodup ?_ ?_).mpr ?_
    · exact (sieve_sorted h).imp (fun hlt => hlt.ne)
    · exact List.nodup_range.filter _
    · intro m
      rw [mem_sieve h, List.mem_filter, List.mem_range, decide_eq_true_iff]
      constructor
      · rintro ⟨-, hn, hp⟩
        exact ⟨by omega, hp⟩
      · rintro ⟨hn, hp⟩
        exact ⟨hp.two_le, by omega, hp⟩

end SisOp.Lib
