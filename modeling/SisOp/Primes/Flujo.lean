/-
# `SisOp.Primes.Flujo` — what every process of the sieve will still read

`entra N s j` are the numbers that process `j` has yet to read from its left pipe:
what the pipe holds, and what the process on the left will still write, which by its
place in the code is a list computed from what it will itself read (`sale`).  No turn
changes what the others will read (`Local.ajenas`), so that the number of turns
left (`medida`) and the lines left to print (`pendiente`) are functions of a state.
-/
import SisOp.Primes.Procesos
import Mathlib.Algebra.BigOperators.Group.Finset.Basic
import Mathlib.Algebra.Order.BigOperators.Group.Finset

namespace SisOp.Primes

open SisOp.Lib

/-! ## Lists of numbers -/

/-- `i`, .., `n`. -/
def ints (i n : Int) : List Int := (List.range (n + 1 - i).toNat).map fun k : Nat => i + (k : Int)

theorem ints_of_le {i n : Int} (h : i ≤ n) : ints i n = i :: ints (i + 1) n := by
  have hsucc : (n + 1 - i).toNat = (n + 1 - (i + 1)).toNat + 1 := by omega
  rw [ints, ints, hsucc, List.range_succ_eq_map, List.map_cons, List.map_map]
  refine congrArg₂ _ (by simp) (List.map_congr_left ?_)
  intro k _
  simp only [Function.comp_apply, Nat.succ_eq_add_one, Int.natCast_add]
  omega

theorem ints_of_lt {i n : Int} (h : n < i) : ints i n = [] := by
  have hz : (n + 1 - i).toNat = 0 := by omega
  rw [ints, hz]
  rfl

/-- What `filtro` lets through. -/
def criba (b : Int) (xs : List Int) : List Int := xs.filter fun x => x.tmod b ≠ 0

theorem length_criba_le (b : Int) (xs : List Int) : (criba b xs).length ≤ xs.length :=
  List.length_filter_le _ _

@[simp] theorem criba_nil (b : Int) : criba b [] = [] := rfl

theorem criba_cons_of_ne {b x : Int} (h : x.tmod b ≠ 0) (xs : List Int) :
    criba b (x :: xs) = x :: criba b xs := by
  rw [criba, List.filter_cons_of_pos (by simpa using h)]
  rfl

theorem criba_cons_of_eq {b x : Int} (h : x.tmod b = 0) (xs : List Int) :
    criba b (x :: xs) = criba b xs := by
  rw [criba, List.filter_cons_of_neg (by simpa using h)]
  rfl

/-- What process `j`, about to read `xs`, and those after it print. -/
def lineas (j : Nat) : List Int → List (Nat × Linea)
  | [] => [(j, .noHayMas)]
  | x :: xs => (j, .primo x) :: lineas (j + 1) (criba x xs)
  termination_by xs => xs.length
  decreasing_by exact Nat.lt_succ_of_le (length_criba_le x xs)

/-- The turns of a process that is about to read `xs`, and of those after it. -/
def turnos : List Int → Nat
  | [] => 3
  | x :: xs => 2 * xs.length + turnos (criba x xs) + 14
  termination_by xs => xs.length
  decreasing_by exact Nat.lt_succ_of_le (length_criba_le x xs)

/-! ## Where a process is in its code -/

/-- What a process at `pc` will still write, if it will still read `l`. -/
def sale (N : Int) (l : List Int) : Pc → List Int
  | .padreFor i => ints i N
  | .filtroRead b => criba b l
  | .filtroWrite b x => criba b (x :: l)
  | _ => []

/-- The turns left to a process, and to the descendants it has yet to create. -/
def resta (N : Int) (l : List Int) : Pc → Nat
  | .mainPipe => (ints 2 N).length + turnos (ints 2 N) + 10
  | .mainFork => (ints 2 N).length + turnos (ints 2 N) + 9
  | .padreFor i => (ints i N).length + 5
  | .padreCloseEscritura => 4
  | .padreCloseLectura => 3
  | .wait => 2
  | .hijoClose => turnos l + 1
  | .primesRead => turnos l
  | .primesNoHayMas => 2
  | .primesCloseIzq => 1
  | .primesPrintf b => 2 * l.length + turnos (criba b l) + 13
  | .primesPipe b => 2 * l.length + turnos (criba b l) + 12
  | .primesFork b => 2 * l.length + turnos (criba b l) + 11
  | .primesHijoClose => turnos l + 2
  | .filtroRead _ => 2 * l.length + 7
  | .filtroWrite _ _ => 2 * l.length + 8
  | .filtroCloseIzq => 6
  | .filtroCloseEscritura => 5
  | .filtroCloseLectura => 4
  | .exit => 0
  | .sigpipe => 0

/-- The lines that process `j` and the descendants it has yet to create will print. -/
def porImprimir (N : Int) (j : Nat) (l : List Int) : Pc → List (Nat × Linea)
  | .mainPipe => lineas 1 (ints 2 N)
  | .mainFork => lineas 1 (ints 2 N)
  | .hijoClose => lineas j l
  | .primesRead => lineas j l
  | .primesHijoClose => lineas j l
  | .primesNoHayMas => [(j, .noHayMas)]
  | .primesPrintf b => (j, .primo b) :: lineas (j + 1) (criba b l)
  | .primesPipe b => lineas (j + 1) (criba b l)
  | .primesFork b => lineas (j + 1) (criba b l)
  | _ => []

/-- The pipe on the left of process `j`. -/
def izqDe (j : Nat) : Pc → Nat
  | .primesHijoClose => j - 2
  | _ => j - 1

/-- The pipe that `pipe_der` of process `j` names: its parent's until it makes its own. -/
def derDe (j : Nat) : Pc → Nat
  | .mainPipe | .hijoClose | .primesRead | .primesNoHayMas | .primesCloseIzq | .primesPrintf _
  | .primesPipe _ | .primesHijoClose => j - 1
  | _ => j

/-- The descriptors of process `j`. -/
def tiene (j : Nat) : Pc → Finset Fd
  | .mainFork | .padreFor _ | .padreCloseEscritura | .filtroCloseEscritura =>
      {(j, .lectura), (j, .escritura)}
  | .padreCloseLectura | .filtroCloseLectura => {(j, .lectura)}
  | .hijoClose => {(j - 1, .lectura), (j - 1, .escritura)}
  | .primesRead | .primesNoHayMas | .primesCloseIzq | .primesPrintf _ | .primesPipe _ =>
      {(j - 1, .lectura)}
  | .primesFork _ | .filtroRead _ | .filtroWrite _ _ | .filtroCloseIzq =>
      {(j, .lectura), (j, .escritura), (j - 1, .lectura)}
  | .primesHijoClose => {(j - 1, .lectura), (j - 1, .escritura), (j - 2, .lectura)}
  | .mainPipe | .wait | .exit | .sigpipe => ∅

/-- Only the last of `n` processes has not forked; the first one is the one that counts. -/
def Valido (N : Int) (n j : Nat) : Pc → Prop
  | .mainPipe | .mainFork => j = 0 ∧ n = 1
  | .padreFor i => j = 0 ∧ 1 < n ∧ 2 ≤ i ∧ i ≤ N + 1
  | .padreCloseEscritura | .padreCloseLectura => j = 0 ∧ 1 < n
  | .wait => j + 1 < n
  | .hijoClose | .primesRead | .primesNoHayMas | .primesCloseIzq | .primesPrintf _
  | .primesPipe _ | .primesFork _ => 1 ≤ j ∧ j + 1 = n
  | .primesHijoClose => 2 ≤ j ∧ j + 1 = n
  | .filtroRead _ | .filtroWrite _ _ | .filtroCloseIzq | .filtroCloseEscritura
  | .filtroCloseLectura => 1 ≤ j ∧ j + 1 < n
  | .exit => True
  | .sigpipe => False

/-- The process has seen the end of its left pipe. -/
def Leyo : Pc → Prop
  | .primesNoHayMas | .primesCloseIzq | .filtroCloseIzq | .filtroCloseEscritura
  | .filtroCloseLectura | .wait | .exit => True
  | _ => False

/-- The process has printed a number and has not forked yet. -/
def Impreso : Pc → Prop
  | .primesPipe _ | .primesFork _ => True
  | _ => False

/-- The pipe the last process has already made for its child. -/
def propia : Pc → Nat
  | .mainFork | .primesFork _ => 1
  | _ => 0

/-! ## Streams -/

/-- What process `j` will still read. -/
def entra (N : Int) (s : Sistema) : Nat → List Int
  | 0 => []
  | j + 1 => s.pipes j ++ sale N (entra N s j) (s.procs j).pc

theorem entra_congr {N : Int} {s s' : Sistema} {j : Nat}
    (h : ∀ k < j, s'.pipes k = s.pipes k ∧ (s'.procs k).pc = (s.procs k).pc) :
    entra N s' j = entra N s j := by
  induction j with
  | zero => rfl
  | succ j ih =>
    have hj := h j (Nat.lt_succ_self j)
    rw [entra, entra, hj.1, hj.2, ih (fun k hk => h k (Nat.lt_succ_of_lt hk))]

/-- The turns left to all processes. -/
def medida (N : Int) (s : Sistema) : Nat :=
  ∑ j ∈ Finset.range s.nprocs, resta N (entra N s j) (s.procs j).pc

/-- The lines left to print. -/
def pendiente (N : Int) (s : Sistema) : List (Nat × Linea) :=
  porImprimir N (s.nprocs - 1) (entra N s (s.nprocs - 1)) (s.procs (s.nprocs - 1)).pc

/-- What holds of process `j` of `n`, if it will still read `l`. -/
structure Bien (N : Int) (n j : Nat) (q : Proc) (l : List Int) : Prop where
  valido : Valido N n j q.pc
  izq : q.pipeIzq = izqDe j q.pc
  der : q.pc ≠ .exit → q.pipeDer = derDe j q.pc
  fds : q.fds = tiene j q.pc
  hijo : q.hijo = if j + 1 < n then some (j + 1) else none
  leyo : Leyo q.pc → 1 ≤ j → l = [] ∧ q.leido = some 0

structure Inv (N : Int) (s : Sistema) : Prop where
  pos : 0 < s.nprocs
  bien : ∀ j < s.nprocs, Bien N s.nprocs j (s.procs j) (entra N s j)
  npipes : s.npipes = s.nprocs - 1 + propia (s.procs (s.nprocs - 1)).pc
  vacias : ∀ p, s.nprocs ≤ p + 1 → s.pipes p = []
  lineas : s.salida ++ pendiente N s = lineas 1 (ints 2 N)
  impreso : ∀ i p, (i, .primo p) ∈ s.salida →
    i + 1 < s.nprocs ∨ i + 1 = s.nprocs ∧ Impreso (s.procs i).pc

/-! ## A turn that creates no process -/

/-- Process `j`, and the pipes on its left and on its right, change; what it will still read
becomes `l`. -/
structure Local (N : Int) (s s' : Sistema) (j : Nat) (l : List Int) : Prop where
  lt : j < s.nprocs
  nprocs : s'.nprocs = s.nprocs
  procs : ∀ k, k ≠ j → s'.procs k = s.procs k
  pipes : ∀ p, p ≠ j → p + 1 ≠ j → s'.pipes p = s.pipes p
  lee : entra N s' j = l
  flujo : s'.pipes j ++ sale N l (s'.procs j).pc =
    s.pipes j ++ sale N (entra N s j) (s.procs j).pc
  bien : Bien N s.nprocs j (s'.procs j) l
  menos : resta N l (s'.procs j).pc < resta N (entra N s j) (s.procs j).pc
  /-- Nothing but what process `j` itself will print changes. -/
  medio : j + 1 < s.nprocs → s'.salida = s.salida ∧ s'.npipes = s.npipes
  ultimo : j + 1 = s.nprocs → s'.pipes j = s.pipes j ∧ s'.npipes = j + propia (s'.procs j).pc ∧
    s'.salida ++ porImprimir N j l (s'.procs j).pc =
      s.salida ++ porImprimir N j (entra N s j) (s.procs j).pc
  impreso : ∀ i p, (i, .primo p) ∈ s'.salida →
    (i, .primo p) ∈ s.salida ∧ (i = j → Impreso (s.procs j).pc → Impreso (s'.procs j).pc) ∨
      i = j ∧ j + 1 = s.nprocs ∧ Impreso (s'.procs j).pc

namespace Local

variable {N : Int} {s s' : Sistema} {j : Nat} {l : List Int}

/-- What the others will read stays the same. -/
theorem ajenas (h : Local N s s' j l) {k : Nat} (hk : k ≠ j) :
    entra N s' k = entra N s k := by
  rcases Nat.lt_or_gt_of_ne hk with hlt | hgt
  · refine entra_congr ?_
    intro i hi
    rw [h.pipes i (by omega) (by omega), h.procs i (by omega)]
    exact ⟨rfl, rfl⟩
  · obtain ⟨m, rfl⟩ := Nat.exists_eq_add_of_lt hgt
    clear hk hgt
    induction m with
    | zero => rw [Nat.add_zero, entra, entra, h.lee, h.flujo]
    | succ m ih =>
      show s'.pipes (j + m + 1) ++ sale N (entra N s' (j + m + 1)) (s'.procs (j + m + 1)).pc = _
      rw [ih, h.pipes _ (by omega) (by omega), h.procs _ (by omega)]
      rfl

theorem medida_lt (h : Local N s s' j l) : medida N s' < medida N s := by
  rw [medida, medida, h.nprocs]
  refine Finset.sum_lt_sum ?_ ⟨j, Finset.mem_range.mpr h.lt, ?_⟩
  · intro k _
    by_cases hk : k = j
    · subst hk
      rw [h.lee]
      exact h.menos.le
    · rw [h.ajenas hk, h.procs k hk]
  · rw [h.lee]
    exact h.menos

theorem inv (h : Local N s s' j l) (hi : Inv N s) : Inv N s' where
  pos := h.nprocs ▸ hi.pos
  bien := by
    intro k hk
    rw [h.nprocs] at hk ⊢
    by_cases hkj : k = j
    · subst hkj
      rw [h.lee]
      exact h.bien
    · rw [h.ajenas hkj, h.procs k hkj]
      exact hi.bien k hk
  npipes := by
    have hlt := h.lt
    rw [h.nprocs]
    by_cases hlast : j + 1 = s.nprocs
    · have hj : s.nprocs - 1 = j := by omega
      rw [hj]
      exact (h.ultimo hlast).2.1
    · rw [(h.medio (by omega)).2, h.procs _ (by omega)]
      exact hi.npipes
  vacias := by
    intro p hp
    have hlt := h.lt
    rw [h.nprocs] at hp
    rw [← hi.vacias p hp]
    by_cases hpj : p = j
    · subst hpj
      exact (h.ultimo (by omega)).1
    · exact h.pipes p hpj (by omega)
  lineas := by
    have hlt := h.lt
    rw [← hi.lineas, pendiente, pendiente, h.nprocs]
    by_cases hlast : j + 1 = s.nprocs
    · have hj : s.nprocs - 1 = j := by omega
      rw [hj, h.lee]
      exact (h.ultimo hlast).2.2
    · rw [(h.medio (by omega)).1, h.procs _ (by omega), h.ajenas (by omega)]
  impreso := by
    intro i p hmem
    rw [h.nprocs]
    rcases h.impreso i p hmem with ⟨hold, hkeep⟩ | ⟨rfl, hlast, himp⟩
    · rcases hi.impreso i p hold with hlt | ⟨hlast, himp⟩
      · exact Or.inl hlt
      · by_cases hij : i = j
        · subst hij
          exact Or.inr ⟨hlast, hkeep rfl himp⟩
        · rw [h.procs i hij]
          exact Or.inr ⟨hlast, himp⟩
    · exact Or.inr ⟨hlast, himp⟩

end Local

end SisOp.Primes
