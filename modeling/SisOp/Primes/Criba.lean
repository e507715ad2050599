/-
# `SisOp.Primes.Criba` — the sieve prints the primes

`avanza` is one turn of any process.  From it every schedule is finite, every output
is on its way to the same lines (`Inv.lineas`), and a system where nobody can go on
has printed them all: in such a system no process waits for another, since a reader
that waits has a writer on its left that can go on (`lector_avanza`) and a process
whose child has ended can go on too.
-/
import SisOp.Primes.Turnos
import SisOp.Lib.Sieve

namespace SisOp.Primes

open SisOp.Lib Sistema

variable {cap : Nat} {N : Int} {s s' : Sistema} {j : Nat}

theorem incr_eq {i : Int} (h0 : 0 ≤ i) (h : i < INT_MAX) : incr i = i + 1 := by
  rw [INT_MAX] at h
  exact Int.bmod_eq_of_le_mul_two (by omega) (by omega)

/-- The first process makes its child. -/
theorem Inv.mainFork (hi : Inv N s) (hj : j < s.nprocs) (h2 : 2 ≤ N)
    (h : s.turno cap N j = some s') (hpc : (s.procs j).pc = .mainFork) : Avanza N s s' := by
  have b := hi.bien j hj
  obtain ⟨rfl, hn⟩ : j = 0 ∧ s.nprocs = 1 := by
    have hv := b.valido
    rwa [hpc] at hv
  have hder := b.der (by simp [hpc])
  have hizq := b.izq
  have hfds := b.fds
  rw [hpc] at hder hizq hfds
  simp only [turno, hpc, Option.some.injEq] at h
  subst h
  refine hi.fork hj hn.symm rfl (fun k hk => absurd hk (Nat.not_lt_zero k)) rfl rfl rfl ?_ ?_ ?_
    ?_ ?_
  all_goals simp only [Sistema.fork, Sistema.setProc, hn, hpc]
  · refine ⟨?_, ?_, ?_, ?_, ?_, ?_⟩
    all_goals simp [Valido, izqDe, derDe, tiene, Leyo, hizq, hder, hfds]
    omega
  · refine ⟨?_, ?_, ?_, ?_, ?_, ?_⟩
    all_goals simp [Valido, izqDe, derDe, tiene, Leyo, hizq, hder, hfds]
  · simp [resta, sale]
    omega
  · simp [porImprimir, sale]
  · simp [propia]

/-- The last process makes its child. -/
theorem Inv.primesFork {b : Int} (hi : Inv N s) (hj : j < s.nprocs)
    (h : s.turno cap N j = some s') (hpc : (s.procs j).pc = .primesFork b) : Avanza N s s' := by
  have w := hi.bien j hj
  obtain ⟨h1, hlast⟩ : 1 ≤ j ∧ j + 1 = s.nprocs := by
    have hv := w.valido
    rwa [hpc] at hv
  have hder := w.der (by simp [hpc])
  have hizq := w.izq
  have hfds := w.fds
  rw [hpc] at hder hizq hfds
  simp only [turno, hpc, Option.some.injEq] at h
  subst h
  have hne : j ≠ s.nprocs := by omega
  refine hi.fork hj hlast rfl ?_ rfl rfl rfl ?_ ?_ ?_ ?_ ?_
  · intro k hk
    simp [Sistema.fork, Sistema.setProc, Function.update_of_ne, show k ≠ j by omega,
      show k ≠ s.nprocs by omega]
  all_goals simp only [Sistema.fork, Sistema.setProc, Function.update_self,
    Function.update_of_ne hne, hpc]
  · refine ⟨?_, ?_, ?_, ?_, ?_, ?_⟩
    all_goals simp [Valido, izqDe, derDe, tiene, Leyo, hizq, hder, hfds, hlast, h1]
  · refine ⟨?_, ?_, ?_, ?_, ?_, ?_⟩
    all_goals simp [Valido, izqDe, derDe, tiene, Leyo, hizq, hder, hfds, ← hlast, h1]
  · simp [resta, sale]
    omega
  · simp [porImprimir, sale, ← hlast]
  · simp [propia]

theorem erase_lectura (h1 : 1 ≤ j) :
    tiene j .filtroCloseEscritura = (tiene j .filtroCloseIzq).erase (j - 1, .lectura) := by
  ext ⟨p, e⟩
  cases e <;> simp [tiene]
  omega

theorem erase_escritura :
    tiene j .filtroCloseLectura = (tiene j .filtroCloseEscritura).erase (j, .escritura) := by
  ext ⟨p, e⟩
  cases e <;> simp [tiene]

theorem erase_ultima : (∅ : Finset Fd) = (tiene j .filtroCloseLectura).erase (j, .lectura) := by
  ext ⟨p, e⟩
  cases e <;> simp [tiene]

theorem erase_izquierda :
    tiene j .primesRead = (tiene j .hijoClose).erase (j - 1, .escritura) := by
  ext ⟨p, e⟩
  cases e <;> simp [tiene]

theorem erase_abuela (h2 : 2 ≤ j) :
    tiene j .hijoClose = (tiene j .primesHijoClose).erase (j - 2, .lectura) := by
  ext ⟨p, e⟩
  cases e <;> simp [tiene]
  omega

/-- `hago_de_padre` writes the next number, or has written them all. -/
theorem Inv.padreFor {i : Int} (hi : Inv N s) (hj : j < s.nprocs) (hN : N < INT_MAX)
    (h : s.turno cap N j = some s') (hpc : (s.procs j).pc = .padreFor i) : Avanza N s s' := by
  obtain ⟨hj0, hn, h2, hle⟩ : j = 0 ∧ 1 < s.nprocs ∧ 2 ≤ i ∧ i ≤ N + 1 := by
    have hv := (hi.bien j hj).valido
    rwa [hpc] at hv
  simp only [turno, hpc] at h
  split at h
  · next hiN =>
    have hincr : incr i = i + 1 := incr_eq (by omega) (by omega)
    refine hi.write hj h hpc (by omega) ?_ rfl rfl rfl (by simp) rfl (by simp [tiene])
      (by simp [tiene]) id ?_ ?_ id
    · exact ⟨hj0, hn, by omega, by omega⟩
    · rw [hincr]
      exact ints_of_le hiN
    · show (ints (incr i) N).length + 5 < (ints i N).length + 5
      rw [hincr, ints_of_le hiN, List.length_cons]
      omega
  · next hiN =>
    rw [← Option.some.inj h]
    refine hi.sigue hj hpc ⟨hj0, hn⟩ rfl rfl (by simp) rfl (by simp [Leyo]) ?_ ?_ ?_ id
    · exact (ints_of_lt (by omega)).symm
    · show 4 < (ints i N).length + 5
      omega
    · intro hlast
      omega

/-- `filtro` writes a number, or drops it. -/
theorem Inv.filtroWrite {b x : Int} (hi : Inv N s) (hj : j < s.nprocs)
    (h : s.turno cap N j = some s') (hpc : (s.procs j).pc = .filtroWrite b x) :
    Avanza N s s' := by
  obtain ⟨h1, hmid⟩ : 1 ≤ j ∧ j + 1 < s.nprocs := by
    have hv := (hi.bien j hj).valido
    rwa [hpc] at hv
  simp only [turno, hpc] at h
  split at h
  · next hmod =>
    refine hi.write hj h hpc hmid ⟨h1, hmid⟩ rfl rfl rfl (by simp) rfl (by simp [tiene])
      (by simp [tiene]) id (criba_cons_of_ne hmod _) (Nat.lt_succ_self _) id
  · next hmod =>
    rw [← Option.some.inj h]
    refine hi.sigue hj hpc ⟨h1, hmid⟩ rfl rfl (by simp) rfl (by simp [Leyo]) ?_
      (Nat.lt_succ_self _) ?_ id
    · exact (criba_cons_of_eq (not_not.mp hmod) _).symm
    · intro hlast
      omega

/-- The new child closes its grandparent's pipe, and `pipe_der` becomes its `pipe_izq`. -/
theorem Inv.primesHijoClose (hi : Inv N s) (hj : j < s.nprocs)
    (h : s.turno cap N j = some s') (hpc : (s.procs j).pc = .primesHijoClose) :
    Avanza N s s' := by
  have b := hi.bien j hj
  obtain ⟨h2, hlast⟩ : 2 ≤ j ∧ j + 1 = s.nprocs := by
    have hv := b.valido
    rwa [hpc] at hv
  have hizq := b.izq
  have hder := b.der (by simp [hpc])
  have hfds := b.fds
  rw [hpc] at hizq hder hfds
  simp only [turno, hpc, Option.some.injEq, Sistema.close, Sistema.setProc, Function.update_self,
    Function.update_idem] at h
  subst h
  refine hi.setProc hj ⟨⟨by omega, hlast⟩, hder, fun _ => hder, ?_, b.hijo, False.elim⟩ ?_ ?_ ?_ ?_
  all_goals simp only [hpc]
  · rw [hfds, hizq]
    exact (erase_abuela h2).symm
  · rfl
  · exact Nat.lt_succ_self _
  · exact fun _ => ⟨rfl, rfl⟩
  · exact id

/-- `hago_de_padre` and `filtro` wait for their child and exit. -/
theorem Inv.wait (hi : Inv N s) (hj : j < s.nprocs) (h : s.turno cap N j = some s')
    (hpc : (s.procs j).pc = .wait) : Avanza N s s' := by
  have hmid : j + 1 < s.nprocs := by
    have hv := (hi.bien j hj).valido
    rwa [hpc] at hv
  have hs' : s' = s.termina j .exit := by
    simp only [turno, hpc, Sistema.wait] at h
    split at h
    · exact (Option.some.inj h).symm
    · split at h
      · exact (Option.some.inj h).symm
      · cases h
  subst hs'
  exact hi.termina hj hpc rfl trivial rfl (by simp [resta]) (fun hlast => by omega) id

/-- The last process closes its pipe and exits. -/
theorem Inv.primesCloseIzq (hi : Inv N s) (hj : j < s.nprocs) (h : s.turno cap N j = some s')
    (hpc : (s.procs j).pc = .primesCloseIzq) : Avanza N s s' := by
  have hs' : s' = s.termina j .exit := by
    simp only [turno, hpc, Option.some.injEq, Sistema.close, Sistema.termina, Sistema.setProc,
      Function.update_self, Function.update_idem] at h
    exact h.symm
  subst hs'
  exact hi.termina hj hpc rfl trivial rfl (by simp [resta]) (fun _ => ⟨rfl, rfl⟩) id

/-- `pipe` in `main`. -/
theorem Inv.mainPipe (hi : Inv N s) (hj : j < s.nprocs) (h : s.turno cap N j = some s')
    (hpc : (s.procs j).pc = .mainPipe) : Avanza N s s' := by
  have b := hi.bien j hj
  have hv := b.valido
  have hizq := b.izq
  have hfds := b.fds
  rw [hpc] at hv hizq hfds
  obtain ⟨rfl, hn⟩ : j = 0 ∧ s.nprocs = 1 := hv
  have hnp := hi.npipes_ultimo (j := 0) hn.symm
  rw [hpc] at hnp
  simp only [turno, hpc, Option.some.injEq] at h
  subst h
  refine hi.pipe hj hn.symm ?_ ?_ ?_ ?_ ?_ ?_
  all_goals simp only [Sistema.pipe, Sistema.setProc, Function.update_self, hpc]
  · refine ⟨⟨rfl, hn⟩, hizq, fun _ => hnp, ?_, b.hijo, False.elim⟩
    rw [hfds, hnp]
    rfl
  · rfl
  · exact Nat.lt_succ_self _
  · exact ⟨rfl, rfl⟩
  · rfl
  · exact False.elim

/-- `pipe` in `primes`. -/
theorem Inv.primesPipe {b : Int} (hi : Inv N s) (hj : j < s.nprocs)
    (h : s.turno cap N j = some s') (hpc : (s.procs j).pc = .primesPipe b) : Avanza N s s' := by
  have w := hi.bien j hj
  have hv := w.valido
  have hizq := w.izq
  have hfds := w.fds
  rw [hpc] at hv hizq hfds
  have hnp := hi.npipes_ultimo hv.2
  rw [hpc] at hnp
  simp only [turno, hpc, Option.some.injEq] at h
  subst h
  refine hi.pipe hj hv.2 ?_ ?_ ?_ ?_ ?_ ?_
  all_goals simp only [Sistema.pipe, Sistema.setProc, Function.update_self, hpc]
  · refine ⟨hv, hizq, fun _ => hnp, ?_, w.hijo, False.elim⟩
    rw [hfds, hnp]
    rfl
  · rfl
  · exact Nat.lt_succ_self _
  · exact ⟨rfl, rfl⟩
  · rfl
  · exact id

/-- A turn keeps the invariant, and there are fewer turns left. -/
theorem avanza (hi : Inv N s) (h2 : 2 ≤ N) (hN : N < INT_MAX) (h : Paso cap N s j s') :
    Avanza N s s' := by
  obtain ⟨hj, h⟩ := h
  have hv := (hi.bien j hj).valido
  have hizq := (hi.bien j hj).izq
  have hder := (hi.bien j hj).der
  cases hpc : (s.procs j).pc with
  | mainPipe => exact hi.mainPipe hj h hpc
  | mainFork => exact hi.mainFork hj h2 h hpc
  | padreFor i => exact hi.padreFor hj hN h hpc
  | padreCloseEscritura =>
    rw [hpc] at hv hder
    simp only [turno, hpc, Option.some.injEq, hder (by simp)] at h
    subst h
    exact hi.close hj hpc hv rfl rfl (by simp) erase_escritura (by simp [Leyo]) rfl
      (by simp [resta]) (fun _ => ⟨rfl, rfl⟩) id
  | padreCloseLectura =>
    rw [hpc] at hv hder
    simp only [turno, hpc, Option.some.injEq, hder (by simp)] at h
    subst h
    refine hi.close hj hpc ?_ rfl rfl (by simp) erase_ultima (fun _ => Or.inr hv.1) rfl
      (by simp [resta]) (fun _ => ⟨rfl, rfl⟩) id
    have h0 : j = 0 := hv.1
    have hn : 1 < s.nprocs := hv.2
    show j + 1 < s.nprocs
    omega
  | wait => exact hi.wait hj h hpc
  | hijoClose =>
    rw [hpc] at hv hizq
    simp only [turno, hpc, Option.some.injEq, hizq] at h
    subst h
    exact hi.close hj hpc hv rfl rfl (by simp) erase_izquierda False.elim rfl
      (Nat.lt_succ_self _) (fun _ => ⟨rfl, rfl⟩) id
  | primesRead =>
    rw [hpc] at hv
    simp only [turno, hpc] at h
    refine hi.read hj h hpc hv.1 (fun _ => hv) hv rfl (fun _ => rfl) rfl (fun _ => rfl) rfl
      (by simp) (fun _ => rfl) rfl (by simp [tiene]) (fun _ => id) (fun _ _ => rfl) rfl ?_ ?_
      ⟨fun _ => rfl, rfl⟩ ?_ id
    · intro x l
      simp only [resta, turnos]
      omega
    · simp [resta, turnos]
    · intro _
      exact ⟨fun x l => by simp [porImprimir, lineas], by simp [porImprimir, lineas]⟩
  | primesNoHayMas =>
    rw [hpc] at hv
    simp only [turno, hpc, Option.some.injEq] at h
    subst h
    refine hi.printf hj hpc hv.2 hv rfl rfl (by simp) rfl id rfl (Nat.lt_succ_self _) rfl rfl id ?_
    rintro ⟨p, hp⟩
    cases hp
  | primesCloseIzq => exact hi.primesCloseIzq hj h hpc
  | primesPrintf b =>
    rw [hpc] at hv
    simp only [turno, hpc, Option.some.injEq] at h
    subst h
    exact hi.printf hj hpc hv.2 hv rfl rfl (by simp) rfl False.elim rfl (Nat.lt_succ_self _) rfl
      rfl id fun _ => trivial
  | primesPipe b => exact hi.primesPipe hj h hpc
  | primesFork b => exact hi.primesFork hj h hpc
  | primesHijoClose => exact hi.primesHijoClose hj h hpc
  | filtroRead b =>
    rw [hpc] at hv
    simp only [turno, hpc] at h
    refine hi.read hj h hpc hv.1 (fun _ => hv) hv rfl (fun _ => rfl) rfl (fun _ => rfl) rfl
      (by simp) (fun _ => rfl) rfl (by simp [tiene]) (fun _ => id) (fun _ _ => rfl) rfl ?_ ?_
      ⟨fun _ => rfl, rfl⟩ ?_ id
    · intro x l
      simp only [resta, List.length_cons]
      omega
    · simp [resta]
    · intro hlast
      exact absurd hv.2 (by omega)
  | filtroWrite b x => exact hi.filtroWrite hj h hpc
  | filtroCloseIzq =>
    rw [hpc] at hv hizq
    simp only [turno, hpc, Option.some.injEq, hizq] at h
    subst h
    exact hi.close hj hpc hv rfl rfl (by simp) (erase_lectura hv.1) Or.inl rfl
      (by simp [resta]) (fun _ => ⟨rfl, rfl⟩) id
  | filtroCloseEscritura =>
    rw [hpc] at hv hder
    simp only [turno, hpc, Option.some.injEq, hder (by simp)] at h
    subst h
    exact hi.close hj hpc hv rfl rfl (by simp) erase_escritura Or.inl rfl
      (by simp [resta]) (fun _ => ⟨rfl, rfl⟩) id
  | filtroCloseLectura =>
    rw [hpc] at hv hder
    simp only [turno, hpc, Option.some.injEq, hder (by simp)] at h
    subst h
    exact hi.close hj hpc hv.2 rfl rfl (by simp) erase_ultima Or.inl rfl
      (by simp [resta]) (fun _ => ⟨rfl, rfl⟩) id
  | exit => simp [turno, hpc] at h
  | sigpipe => simp [turno, hpc] at h

/-! ## Nobody waits for ever -/

/-- Why a process cannot go on. -/
inductive Bloqueado (cap : Nat) (s : Sistema) (j : Nat) : Prop
  | exit (hpc : (s.procs j).pc = .exit)
  | lee (hpc : (s.procs j).pc = .primesRead ∨ ∃ b, (s.procs j).pc = .filtroRead b)
      (hvacia : s.pipes (j - 1) = []) (habierto : s.Abierto (j - 1, .escritura))
  | escribe (hpc : (∃ i, (s.procs j).pc = .padreFor i) ∨ ∃ b x, (s.procs j).pc = .filtroWrite b x)
      (hllena : cap ≤ (s.pipes j).length)
  | espera (hpc : (s.procs j).pc = .wait) (hhijo : (s.procs (j + 1)).pc ≠ .exit)

theorem read_none {pc : Int → Pc} {pcFin : Pc} (h : s.read j pc pcFin = none) :
    s.pipes (s.procs j).pipeIzq = [] ∧ s.Abierto ((s.procs j).pipeIzq, .escritura) := by
  rw [Sistema.read] at h
  split at h
  · cases h
  cases hbuf : s.pipes (s.procs j).pipeIzq with
  | cons x xs =>
    rw [hbuf] at h
    cases h
  | nil =>
    simp only [hbuf] at h
    split at h
    · next habierto => exact ⟨rfl, habierto⟩
    · cases h

theorem write_none {x : Int} {pc : Pc} (h : s.write cap j x pc = none) :
    cap ≤ (s.pipes (s.procs j).pipeDer).length := by
  rw [Sistema.write] at h
  split at h
  · cases h
  split at h
  · cases h
  split at h
  · cases h
  · next hlleno => exact Nat.le_of_not_lt hlleno

theorem Inv.bloqueado (hi : Inv N s) (hj : j < s.nprocs) (h : s.turno cap N j = none) :
    Bloqueado cap s j := by
  have hv := (hi.bien j hj).valido
  have hizq := (hi.bien j hj).izq
  have hder := (hi.bien j hj).der
  have hhijo := (hi.bien j hj).hijo
  cases hpc : (s.procs j).pc with
  | exit => exact .exit hpc
  | primesRead =>
    rw [hpc] at hizq
    simp only [turno, hpc] at h
    obtain ⟨hvacia, habierto⟩ := read_none h
    rw [hizq] at hvacia habierto
    exact .lee (Or.inl hpc) hvacia habierto
  | filtroRead b =>
    rw [hpc] at hizq
    simp only [turno, hpc] at h
    obtain ⟨hvacia, habierto⟩ := read_none h
    rw [hizq] at hvacia habierto
    exact .lee (Or.inr ⟨b, hpc⟩) hvacia habierto
  | padreFor i =>
    rw [hpc] at hv hder
    simp only [turno, hpc] at h
    split at h
    · refine .escribe (Or.inl ⟨i, hpc⟩) ?_
      have hllena := write_none h
      rwa [hder (by simp)] at hllena
    · cases h
  | filtroWrite b x =>
    rw [hpc] at hv hder
    simp only [turno, hpc] at h
    split at h
    · refine .escribe (Or.inr ⟨b, x, hpc⟩) ?_
      have hllena := write_none h
      rwa [hder (by simp)] at hllena
    · cases h
  | wait =>
    rw [hpc] at hv
    have hmid : j + 1 < s.nprocs := hv
    rw [if_pos hmid] at hhijo
    simp only [turno, hpc, Sistema.wait, hhijo] at h
    split at h
    · cases h
    · next hvivo => exact .espera hpc fun hexit => hvivo (Or.inl hexit)
  | sigpipe =>
    rw [hpc] at hv
    exact hv.elim
  | _ => simp [turno, hpc] at h

/-- The write end of a pipe is held on its left, or by the process that has just been made. -/
theorem quien_escribe {p : Nat} {pc : Pc} {n : Nat} (hv : Valido N n j pc)
    (h : (p, Extremo.escritura) ∈ tiene j pc) :
    p = j ∧ pc ≠ .exit ∧ pc ≠ .wait ∨ p + 1 = j ∧ (pc = .hijoClose ∨ pc = .primesHijoClose) := by
  revert hv h
  cases pc <;> simp [tiene, Valido] <;> omega

theorem Quieto.bloqueado (hq : Quieto cap N s) (hi : Inv N s) (hj : j < s.nprocs) :
    Bloqueado cap s j := by
  refine hi.bloqueado (N := N) hj (Option.eq_none_iff_forall_not_mem.mpr ?_)
  intro s' hs'
  exact hq j s' ⟨hj, hs'⟩

/-- No process waits to read: the one on its left, or one further on, can go on. -/
theorem Quieto.no_lee (hq : Quieto cap N s) (hi : Inv N s) (hcap : 0 < cap) (hj : j < s.nprocs)
    (hvacia : s.pipes (j - 1) = []) (habierto : s.Abierto (j - 1, .escritura))
    (hpc : (s.procs j).pc = .primesRead ∨ ∃ b, (s.procs j).pc = .filtroRead b) : False := by
  induction j using Nat.strong_induction_on with
  | _ j ih =>
    have h1 : 1 ≤ j := by
      have hv := (hi.bien j hj).valido
      rcases hpc with hpc | ⟨b, hpc⟩
      all_goals
        rw [hpc] at hv
        exact hv.1
    obtain ⟨k, hk, hmem⟩ := habierto
    have bk := hi.bien k hk
    rw [bk.fds] at hmem
    rcases quien_escribe bk.valido hmem with ⟨rfl, hexit, hwait⟩ | ⟨hkj, hnueva⟩
    · cases hq.bloqueado hi hk with
      | exit h => exact hexit h
      | espera h _ => exact hwait h
      | escribe _ hllena =>
        rw [hvacia] at hllena
        exact absurd hllena (by simpa using hcap.ne')
      | lee h hvacia' habierto' => exact ih (j - 1) (by omega) hk hvacia' habierto' h
    · -- the child of a fork has not begun to read
      obtain rfl : k = j := by omega
      rcases hpc with hpc | ⟨b, hpc⟩
      all_goals
        rw [hpc] at hnueva
        simp at hnueva

/-- When nobody can go on, everybody has ended, the child before the parent. -/
theorem Quieto.exit (hq : Quieto cap N s) (hi : Inv N s) (hcap : 0 < cap) (hj : j < s.nprocs) :
    (s.procs j).pc = .exit := by
  obtain ⟨m, hm⟩ : ∃ m, j + m + 1 = s.nprocs := ⟨s.nprocs - j - 1, by omega⟩
  induction m generalizing j with
  | zero =>
    have hv := (hi.bien j hj).valido
    cases hq.bloqueado hi hj with
    | exit h => exact h
    | lee h hvacia habierto => exact (hq.no_lee hi hcap hj hvacia habierto h).elim
    | escribe h _ =>
      rcases h with ⟨i, h⟩ | ⟨b, x, h⟩
      · rw [h] at hv
        have h0 : j = 0 := hv.1
        have hmid : 1 < s.nprocs := hv.2.1
        omega
      · rw [h] at hv
        have hmid : j + 1 < s.nprocs := hv.2
        omega
    | espera h _ =>
      rw [h] at hv
      have hmid : j + 1 < s.nprocs := hv
      omega
  | succ m ih =>
    have hj1 : j + 1 < s.nprocs := by omega
    have hhijo : (s.procs (j + 1)).pc = .exit := ih hj1 (by omega)
    cases hq.bloqueado hi hj with
    | exit h => exact h
    | lee h hvacia habierto => exact (hq.no_lee hi hcap hj hvacia habierto h).elim
    | escribe _ hllena =>
      -- the child has ended, so that it had read all there was
      have hnada := ((hi.bien (j + 1) hj1).leyo (by rw [hhijo]; trivial) (by omega)).1
      rw [entra, List.append_eq_nil_iff] at hnada
      rw [hnada.1] at hllena
      exact absurd hllena (by simpa using hcap.ne')
    | espera _ hvivo => exact absurd hhijo hvivo

/-! ## The output -/

/-- The number on a line. -/
def Linea.numero : Linea → Option Int
  | .primo p => some p
  | .noHayMas => none

/-- The numbers printed so far. -/
def numeros (ls : List (Nat × Linea)) : List Int := ls.filterMap fun l => l.2.numero

/-- The primes up to `n`, in order. -/
def primosHasta (n : Int) : List Int :=
  ((List.range (n.toNat + 1)).filter fun p => p.Prime).map fun p : Nat => (p : Int)

theorem criba_cast (x : Nat) (l : List Nat) :
    criba x (l.map fun p : Nat => (p : Int)) = (strike x l).map fun p : Nat => (p : Int) := by
  rw [criba, strike, List.filter_map]
  refine congrArg _ (List.filter_congr ?_)
  intro m _
  simp only [Function.comp_apply, decide_eq_decide, ne_eq]
  rw [← Int.dvd_iff_tmod_eq_zero, Int.natCast_dvd_natCast]

theorem numeros_lineas (j : Nat) (l : List Nat) :
    numeros (lineas j (l.map fun p : Nat => (p : Int))) = (sieve l).map fun p : Nat => (p : Int) := by
  induction l using sieve.induct generalizing j with
  | case1 => simp [lineas, sieve, numeros, Linea.numero]
  | case2 x xs ih =>
    rw [List.map_cons, lineas, sieve, List.map_cons, criba_cast, ← ih (j + 1)]
    rfl

theorem ints_cast (n : Int) :
    ints 2 n = (List.range' 2 (n.toNat - 1)).map fun p : Nat => (p : Int) := by
  rw [ints, List.range'_eq_map_range, List.map_map]
  have hlen : (n + 1 - 2).toNat = n.toNat - 1 := by omega
  rw [hlen]
  refine List.map_congr_left ?_
  intro k _
  simp

theorem numeros_esperados (n : Int) : numeros (lineas 1 (ints 2 n)) = primosHasta n := by
  rw [ints_cast, numeros_lineas, sieve_eq_primes]
  rfl

/-! ## Runs -/

theorem inicio_inv (N : Int) : Inv N inicio where
  pos := Nat.one_pos
  bien := by
    intro j hj
    obtain rfl : j = 0 := Nat.lt_one_iff.mp hj
    exact ⟨⟨rfl, rfl⟩, rfl, fun _ => rfl, rfl, rfl, False.elim⟩
  npipes := rfl
  vacias := fun _ _ => rfl
  lineas := rfl
  impreso := fun _ _ hmem => absurd hmem List.not_mem_nil

/-- Whatever the capacity of a pipe and whoever goes next: the runs are bounded; at any point
the numbers printed are the first primes; and when nobody can go on, they are the primes up
to `N`, every process has exited and every one but `main` has read the end of its left pipe,
and the last one has printed no number. -/
theorem sieve_prints_primes (cap : Nat) (N : Int) (hcap : 0 < cap) (h2 : 2 ≤ N)
    (hN : N < INT_MAX) :
    (∃ cota, ∀ tr s, Run (Paso cap N) inicio tr s → tr.length ≤ cota) ∧
      ∀ tr s, Run (Paso cap N) inicio tr s →
        numeros s.salida <+: primosHasta N ∧
        (Quieto cap N s →
          numeros s.salida = primosHasta N ∧
          (∀ j < s.nprocs, (s.procs j).pc = .exit) ∧
          (∀ j < s.nprocs, 1 ≤ j → (s.procs j).leido = some 0) ∧
          ∀ p, (s.nprocs - 1, .primo p) ∉ s.salida) := by
  have hstep : ∀ s i s', Inv N s → Paso cap N s i s' → Inv N s' ∧ medida N s' < medida N s :=
    fun s i s' hi h => avanza hi h2 hN h
  constructor
  · refine ⟨medida N inicio, ?_⟩
    intro tr s hrun
    have hle := hrun.length_add_le hstep (inicio_inv N)
    omega
  · intro tr s hrun
    have hi : Inv N s := hrun.preserves (fun s i s' h hs => (hstep s i s' h hs).1) (inicio_inv N)
    have hnum : numeros s.salida ++ numeros (pendiente N s) = primosHasta N := by
      rw [← numeros_esperados, ← hi.lineas, numeros, numeros, numeros, List.filterMap_append]
    refine ⟨⟨_, hnum⟩, ?_⟩
    intro hq
    have hexit : ∀ j < s.nprocs, (s.procs j).pc = .exit := fun j hj => hq.exit hi hcap hj
    have hpos := hi.pos
    refine ⟨?_, hexit, ?_, ?_⟩
    · rw [pendiente, hexit _ (by omega)] at hnum
      rw [← hnum]
      exact (List.append_nil _).symm
    · intro j hj h1
      exact ((hi.bien j hj).leyo (by rw [hexit j hj]; trivial) h1).2
    · intro p hmem
      rcases hi.impreso _ _ hmem with hlt | ⟨-, himp⟩
      · omega
      · rw [hexit _ (by omega)] at himp
        exact himp

/-- Up to 10, with pipes of 16384 numbers. -/
theorem sieve_prints_primes_ten :
    0 < 16384 ∧ (2 : Int) ≤ 10 ∧ (10 : Int) < INT_MAX ∧
      ∀ tr s, Run (Paso 16384 10) inicio tr s → Quieto 16384 10 s →
        numeros s.salida = [2, 3, 5, 7] := by
  refine ⟨by decide, by decide, by decide, ?_⟩
  intro tr s hrun hq
  have h := sieve_prints_primes 16384 10 (by decide) (by decide) (by decide)
  exact ((h.2 tr s hrun).2 hq).1

end SisOp.Primes
