/-
# `SisOp.Primes.Turnos` — what a turn of the sieve keeps

Every turn of a process keeps `Inv` and lowers `medida` (`avanza`).  The turns are of
six kinds: a change of the process alone (`Inv.setProc`), a number read, a number
written, a line printed, a pipe made, a child made.  The first five are `Local`; a
`fork` divides what its process had left to do between parent and child.
-/
import SisOp.Primes.Flujo

namespace SisOp.Primes

open SisOp.Lib Sistema

/-- What a turn leads to. -/
def Avanza (N : Int) (s s' : Sistema) : Prop := Inv N s' ∧ medida N s' < medida N s

theorem Local.avanza {N : Int} {s s' : Sistema} {j : Nat} {l : List Int}
    (h : Local N s s' j l) (hi : Inv N s) : Avanza N s s' :=
  ⟨h.inv hi, h.medida_lt⟩

/-- A process that has forked does not care how many follow its child. -/
theorem Bien.mono {N : Int} {n j : Nat} {q : Proc} {l : List Int} (h : Bien N n j q l)
    (hj : j + 1 < n) : Bien N (n + 1) j q l where
  valido := by
    have hv := h.valido
    revert hv
    cases q.pc <;> simp only [Valido] <;> first | omega | exact id
  izq := h.izq
  der := h.der
  fds := h.fds
  hijo := by rw [h.hijo, if_pos hj, if_pos (by omega)]
  leyo := h.leyo

section

theorem Inv.npipes_ultimo {N : Int} {s : Sistema} (hi : Inv N s) {j : Nat}
    (hlast : j + 1 = s.nprocs) : s.npipes = j + propia (s.procs j).pc := by
  have hj1 : s.nprocs - 1 = j := by omega
  have hnp := hi.npipes
  rwa [hj1] at hnp

variable {N : Int} {s : Sistema} {j : Nat} (hi : Inv N s) (hj : j < s.nprocs)
include hi hj

/-! ## The kinds of turns -/

/-- No pipe changes what it holds, and the process still has the same to write. -/
theorem Inv.sinTubos {s' : Sistema} {q : Proc} (hn : s'.nprocs = s.nprocs)
    (hprocs : s'.procs = Function.update s.procs j q) (hpipes : s'.pipes = s.pipes)
    (hbien : Bien N s.nprocs j q (entra N s j))
    (hsale : sale N (entra N s j) q.pc = sale N (entra N s j) (s.procs j).pc)
    (hmenos : resta N (entra N s j) q.pc < resta N (entra N s j) (s.procs j).pc)
    (hmedio : j + 1 < s.nprocs → s'.salida = s.salida ∧ s'.npipes = s.npipes)
    (hultimo : j + 1 = s.nprocs → s'.npipes = j + propia q.pc ∧
      s'.salida ++ porImprimir N j (entra N s j) q.pc =
        s.salida ++ porImprimir N j (entra N s j) (s.procs j).pc)
    (himp : ∀ i p, (i, .primo p) ∈ s'.salida →
      (i, .primo p) ∈ s.salida ∧ (i = j → Impreso (s.procs j).pc → Impreso q.pc) ∨
        i = j ∧ j + 1 = s.nprocs ∧ Impreso q.pc) : Avanza N s s' := by
  have hq : s'.procs j = q := by rw [hprocs, Function.update_self]
  have hother : ∀ k, k ≠ j → s'.procs k = s.procs k := by
    intro k hk
    rw [hprocs, Function.update_of_ne hk]
  have hlocal : Local N s s' j (entra N s j) :=
    { lt := hj
      nprocs := hn
      procs := hother
      pipes := fun p _ _ => congrFun hpipes p
      lee := by
        refine entra_congr ?_
        intro k hk
        rw [hpipes, hother k hk.ne]
        exact ⟨rfl, rfl⟩
      flujo := by rw [hq, hsale, hpipes]
      bien := hq ▸ hbien
      menos := hq ▸ hmenos
      medio := hmedio
      ultimo := fun hlast => ⟨congrFun hpipes j, hq ▸ hultimo hlast⟩
      impreso := hq ▸ himp }
  exact hlocal.avanza hi

/-- Only the process changes. -/
theorem Inv.setProc {q : Proc} (hbien : Bien N s.nprocs j q (entra N s j))
    (hsale : sale N (entra N s j) q.pc = sale N (entra N s j) (s.procs j).pc)
    (hmenos : resta N (entra N s j) q.pc < resta N (entra N s j) (s.procs j).pc)
    (hpropia : j + 1 = s.nprocs → propia q.pc = propia (s.procs j).pc ∧
      porImprimir N j (entra N s j) q.pc = porImprimir N j (entra N s j) (s.procs j).pc)
    (himp : ¬ Impreso (s.procs j).pc) : Avanza N s (s.setProc j q) := by
  refine hi.sinTubos hj rfl rfl rfl hbien hsale hmenos (fun _ => ⟨rfl, rfl⟩) ?_ ?_
  · intro hlast
    rw [(hpropia hlast).1, (hpropia hlast).2]
    exact ⟨hi.npipes_ultimo hlast, rfl⟩
  · intro i p hmem
    exact Or.inl ⟨hmem, fun _ h => absurd h himp⟩

/-- The last process makes a pipe. -/
theorem Inv.pipe {pc : Pc} (hlast : j + 1 = s.nprocs)
    (hbien : Bien N s.nprocs j ((s.pipe j pc).procs j) (entra N s j))
    (hsale : sale N (entra N s j) pc = sale N (entra N s j) (s.procs j).pc)
    (hmenos : resta N (entra N s j) pc < resta N (entra N s j) (s.procs j).pc)
    (hpropia : propia (s.procs j).pc = 0 ∧ propia pc = 1)
    (hsalida : porImprimir N j (entra N s j) pc = porImprimir N j (entra N s j) (s.procs j).pc)
    (himp : Impreso (s.procs j).pc → Impreso pc) : Avanza N s (s.pipe j pc) := by
  have hself : (s.pipe j pc).procs j = _ := Function.update_self j _ s.procs
  rw [hself] at hbien
  refine hi.sinTubos hj rfl rfl rfl hbien hsale hmenos (fun h => absurd h (by omega)) ?_ ?_
  · intro _
    have hnp := hi.npipes_ultimo hlast
    rw [hpropia.1] at hnp
    rw [hpropia.2, hsalida]
    exact ⟨congrArg (· + 1) hnp, rfl⟩
  · intro i p hmem
    exact Or.inl ⟨hmem, fun _ h => himp h⟩

/-- A number is read. -/
theorem Inv.lee {x : Int} {xs : List Int} {pc : Pc} (h1 : 1 ≤ j)
    (hx : s.pipes (j - 1) = x :: xs) {l : List Int} (hl : entra N s j = x :: l)
    (hbien : Bien N s.nprocs j { s.procs j with leido := some 4, pc := pc } l)
    (hsale : sale N l pc = sale N (entra N s j) (s.procs j).pc)
    (hmenos : resta N l pc < resta N (entra N s j) (s.procs j).pc)
    (hultimo : j + 1 = s.nprocs → propia pc = propia (s.procs j).pc ∧
      porImprimir N j l pc = porImprimir N j (entra N s j) (s.procs j).pc)
    (himp : ¬ Impreso (s.procs j).pc) :
    Avanza N s ((s.setPipe (j - 1) xs).leyo j 4 pc) := by
  have hq : ((s.setPipe (j - 1) xs).leyo j 4 pc).procs j =
      { s.procs j with leido := some 4, pc := pc } := Function.update_self ..
  have hother : ∀ k, k ≠ j → ((s.setPipe (j - 1) xs).leyo j 4 pc).procs k = s.procs k :=
    fun k hk => Function.update_of_ne hk ..
  have hpipe : ∀ p, p + 1 ≠ j → ((s.setPipe (j - 1) xs).leyo j 4 pc).pipes p = s.pipes p :=
    fun p hp => Function.update_of_ne (by omega) ..
  have hlocal : Local N s ((s.setPipe (j - 1) xs).leyo j 4 pc) j l :=
    { lt := hj
      nprocs := rfl
      procs := hother
      pipes := fun p _ hp => hpipe p hp
      lee := by
        obtain ⟨i, rfl⟩ : ∃ i, j = i + 1 := ⟨j - 1, by omega⟩
        have hxs : ((s.setPipe i xs).leyo (i + 1) 4 pc).pipes i = xs := Function.update_self ..
        simp only [Nat.add_sub_cancel] at hx hother ⊢
        rw [entra, hx, List.cons_append] at hl
        rw [entra, hxs, hother i (by omega), ← (List.cons.inj hl).2]
        refine congrArg (xs ++ sale N · _) (entra_congr ?_)
        intro k hk
        rw [hother k (by omega)]
        exact ⟨Function.update_of_ne (by omega) .., rfl⟩
      flujo := by rw [hq, hpipe j (by omega), hsale]
      bien := hq ▸ hbien
      menos := hq ▸ hmenos
      medio := fun _ => ⟨rfl, rfl⟩
      ultimo := by
        intro hlast
        rw [hq, (hultimo hlast).1, (hultimo hlast).2]
        exact ⟨hpipe j (by omega), hi.npipes_ultimo hlast, rfl⟩
      impreso := fun i p hmem => Or.inl ⟨hmem, fun _ h => absurd h himp⟩ }
  exact hlocal.avanza hi

/-- A number is written, by a process that has already forked. -/
theorem Inv.escribe {x : Int} {pc : Pc} (hmid : j + 1 < s.nprocs)
    (hbien : Bien N s.nprocs j { s.procs j with pc := pc } (entra N s j))
    (hsale : sale N (entra N s j) (s.procs j).pc = x :: sale N (entra N s j) pc)
    (hmenos : resta N (entra N s j) pc < resta N (entra N s j) (s.procs j).pc)
    (himp : ¬ Impreso (s.procs j).pc) :
    Avanza N s ((s.setPipe j (s.pipes j ++ [x])).sigue j pc) := by
  have hq : ((s.setPipe j (s.pipes j ++ [x])).sigue j pc).procs j =
      { s.procs j with pc := pc } := Function.update_self ..
  have hother : ∀ k, k ≠ j → ((s.setPipe j (s.pipes j ++ [x])).sigue j pc).procs k = s.procs k :=
    fun k hk => Function.update_of_ne hk ..
  have hpipe : ∀ p, p ≠ j → ((s.setPipe j (s.pipes j ++ [x])).sigue j pc).pipes p = s.pipes p :=
    fun p hp => Function.update_of_ne hp ..
  have hlocal : Local N s ((s.setPipe j (s.pipes j ++ [x])).sigue j pc) j (entra N s j) :=
    { lt := hj
      nprocs := rfl
      procs := hother
      pipes := fun p hp _ => hpipe p hp
      lee := by
        refine entra_congr ?_
        intro k hk
        rw [hother k hk.ne, hpipe k hk.ne]
        exact ⟨rfl, rfl⟩
      flujo := by
        have hself : ((s.setPipe j (s.pipes j ++ [x])).sigue j pc).pipes j = s.pipes j ++ [x] :=
          Function.update_self ..
        rw [hq, hself, hsale]
        exact List.append_assoc ..
      bien := hq ▸ hbien
      menos := hq ▸ hmenos
      medio := fun _ => ⟨rfl, rfl⟩
      ultimo := fun hlast => absurd hlast (by omega)
      impreso := fun i p hmem => Or.inl ⟨hmem, fun _ h => absurd h himp⟩ }
  exact hlocal.avanza hi

/-- The last process makes its child. -/
theorem Inv.fork {s' : Sistema} (hlast : j + 1 = s.nprocs) (hn : s'.nprocs = s.nprocs + 1)
    (hother : ∀ k < j, s'.procs k = s.procs k) (hpipes : s'.pipes = s.pipes)
    (hsalida : s'.salida = s.salida) (hnp : s'.npipes = s.npipes)
    (hpadre : Bien N (s.nprocs + 1) j (s'.procs j) (entra N s j))
    (hhijo : Bien N (s.nprocs + 1) s.nprocs (s'.procs s.nprocs)
      (sale N (entra N s j) (s'.procs j).pc))
    (hmenos : resta N (entra N s j) (s'.procs j).pc +
      resta N (sale N (entra N s j) (s'.procs j).pc) (s'.procs s.nprocs).pc <
        resta N (entra N s j) (s.procs j).pc)
    (hpor : porImprimir N s.nprocs (sale N (entra N s j) (s'.procs j).pc)
      (s'.procs s.nprocs).pc = porImprimir N j (entra N s j) (s.procs j).pc)
    (hpropia : propia (s.procs j).pc = 1 ∧ propia (s'.procs s.nprocs).pc = 0) :
    Avanza N s s' := by
  have hentra : ∀ k ≤ j, entra N s' k = entra N s k := by
    intro k hk
    refine entra_congr ?_
    intro i hi
    rw [hpipes, hother i (by omega)]
    exact ⟨rfl, rfl⟩
  have hnueva : entra N s' s.nprocs = sale N (entra N s j) (s'.procs j).pc := by
    rw [← hlast, entra, hpipes, hi.vacias j (by omega), hentra j (le_refl j), List.nil_append]
  constructor
  · refine ⟨by omega, ?_, ?_, ?_, ?_, ?_⟩
    · intro k hk
      rw [hn] at hk ⊢
      rcases Nat.lt_trichotomy k j with hlt | rfl | hgt
      · rw [hother k hlt, hentra k hlt.le]
        exact (hi.bien k (by omega)).mono (by omega)
      · rw [hentra k (le_refl k)]
        exact hpadre
      · obtain rfl : k = s.nprocs := by omega
        rw [hnueva]
        exact hhijo
    · rw [hn, Nat.add_sub_cancel, hpropia.2, hnp, hi.npipes_ultimo hlast, hpropia.1, hlast]
      rfl
    · intro p hp
      rw [hpipes]
      exact hi.vacias p (by omega)
    · have hj1 : s.nprocs - 1 = j := by omega
      rw [← hi.lineas, pendiente, pendiente, hn, Nat.add_sub_cancel, hnueva, hpor, hj1, hsalida]
    · intro i p hmem
      rw [hn]
      rw [hsalida] at hmem
      rcases hi.impreso i p hmem with hlt | ⟨heq, -⟩
      · exact Or.inl (by omega)
      · exact Or.inl (by omega)
  · have hresto : ∑ k ∈ Finset.range j, resta N (entra N s' k) (s'.procs k).pc =
        ∑ k ∈ Finset.range j, resta N (entra N s k) (s.procs k).pc := by
      refine Finset.sum_congr rfl ?_
      intro k hk
      have hlt := Finset.mem_range.mp hk
      rw [hentra k hlt.le, hother k hlt]
    have hnueva' := hnueva
    rw [← hlast] at hnueva' hmenos
    rw [medida, medida, hn, ← hlast, Finset.sum_range_succ, Finset.sum_range_succ,
      Finset.sum_range_succ, hresto, hentra j (le_refl j), hnueva']
    omega

/-! ## The calls -/

/-- The process goes on with the same descriptors. -/
theorem Inv.sigue {pc pc0 : Pc} (hpc : (s.procs j).pc = pc0) (hvalido : Valido N s.nprocs j pc)
    (hizq : izqDe j pc = izqDe j pc0) (hder : derDe j pc = derDe j pc0) (hexit : pc0 ≠ .exit)
    (hfds : tiene j pc = tiene j pc0) (hleyo : Leyo pc → Leyo pc0 ∨ j = 0)
    (hsale : sale N (entra N s j) pc = sale N (entra N s j) pc0)
    (hmenos : resta N (entra N s j) pc < resta N (entra N s j) pc0)
    (hpropia : j + 1 = s.nprocs → propia pc = propia pc0 ∧
      porImprimir N j (entra N s j) pc = porImprimir N j (entra N s j) pc0)
    (himp : ¬ Impreso pc0) : Avanza N s (s.sigue j pc) := by
  subst hpc
  have b := hi.bien j hj
  refine hi.setProc hj ⟨hvalido, b.izq.trans hizq.symm, ?_, b.fds.trans hfds.symm, b.hijo, ?_⟩
    hsale hmenos hpropia himp
  · exact fun _ => (b.der hexit).trans hder.symm
  · intro h h1
    exact b.leyo ((hleyo h).resolve_right (by omega)) h1

/-- The last process prints its next line. -/
theorem Inv.printf {x : Linea} {pc pc0 : Pc} (hpc : (s.procs j).pc = pc0)
    (hlast : j + 1 = s.nprocs) (hvalido : Valido N s.nprocs j pc) (hizq : izqDe j pc = izqDe j pc0)
    (hder : derDe j pc = derDe j pc0) (hexit : pc0 ≠ .exit) (hfds : tiene j pc = tiene j pc0)
    (hleyo : Leyo pc → Leyo pc0) (hsale : sale N (entra N s j) pc = sale N (entra N s j) pc0)
    (hmenos : resta N (entra N s j) pc < resta N (entra N s j) pc0)
    (hpropia : propia pc = propia pc0)
    (hsalida : porImprimir N j (entra N s j) pc0 = (j, x) :: porImprimir N j (entra N s j) pc)
    (himp : ¬ Impreso pc0) (hx : (∃ p, x = .primo p) → Impreso pc) :
    Avanza N s (s.printf j x pc) := by
  subst hpc
  have b := hi.bien j hj
  refine hi.sinTubos hj rfl rfl rfl ⟨hvalido, b.izq.trans hizq.symm, ?_, b.fds.trans hfds.symm,
    b.hijo, fun h => b.leyo (hleyo h)⟩ hsale hmenos (fun h => absurd h (by omega)) ?_ ?_
  · exact fun _ => (b.der hexit).trans hder.symm
  · intro _
    rw [hpropia, hsalida]
    exact ⟨hi.npipes_ultimo hlast, List.append_assoc ..⟩
  · intro i p hmem
    rcases List.mem_append.mp hmem with hold | hnew
    · exact Or.inl ⟨hold, fun _ h => absurd h himp⟩
    · obtain ⟨rfl, hp⟩ := Prod.mk.inj (List.mem_singleton.mp hnew)
      exact Or.inr ⟨rfl, hlast, hx ⟨p, hp.symm⟩⟩

/-- The process closes a descriptor. -/
theorem Inv.close {fd : Fd} {pc pc0 : Pc} (hpc : (s.procs j).pc = pc0)
    (hvalido : Valido N s.nprocs j pc) (hizq : izqDe j pc = izqDe j pc0)
    (hder : derDe j pc = derDe j pc0) (hexit : pc0 ≠ .exit)
    (hfds : tiene j pc = (tiene j pc0).erase fd) (hleyo : Leyo pc → Leyo pc0 ∨ j = 0)
    (hsale : sale N (entra N s j) pc = sale N (entra N s j) pc0)
    (hmenos : resta N (entra N s j) pc < resta N (entra N s j) pc0)
    (hpropia : j + 1 = s.nprocs → propia pc = propia pc0 ∧
      porImprimir N j (entra N s j) pc = porImprimir N j (entra N s j) pc0)
    (himp : ¬ Impreso pc0) : Avanza N s (s.close j fd pc) := by
  subst hpc
  have b := hi.bien j hj
  refine hi.setProc hj ⟨hvalido, b.izq.trans hizq.symm, ?_, ?_, b.hijo, ?_⟩
    hsale hmenos hpropia himp
  · exact fun _ => (b.der hexit).trans hder.symm
  · show (s.procs j).fds.erase fd = _
    rw [hfds, b.fds]
  · intro h h1
    exact b.leyo ((hleyo h).resolve_right (by omega)) h1

/-- The process exits. -/
theorem Inv.termina {pc0 : Pc} (hpc : (s.procs j).pc = pc0) (hizq : izqDe j pc0 = j - 1)
    (hleyo : Leyo pc0) (hsale : sale N (entra N s j) pc0 = [])
    (hmenos : 0 < resta N (entra N s j) pc0)
    (hpropia : j + 1 = s.nprocs → propia pc0 = 0 ∧ porImprimir N j (entra N s j) pc0 = [])
    (himp : ¬ Impreso pc0) : Avanza N s (s.termina j .exit) := by
  subst hpc
  have b := hi.bien j hj
  refine hi.setProc hj ⟨trivial, b.izq.trans hizq, ?_, rfl, b.hijo, fun _ => b.leyo hleyo⟩
    hsale.symm hmenos ?_ himp
  · exact fun h => absurd rfl h
  · intro hlast
    rw [(hpropia hlast).1, (hpropia hlast).2]
    exact ⟨rfl, rfl⟩

/-- A process that has forked and writes: it holds both ends, so that it goes on. -/
theorem Inv.write {cap : Nat} {x : Int} {pc pc0 : Pc} {s' : Sistema}
    (h : s.write cap j x pc = some s') (hpc : (s.procs j).pc = pc0) (hmid : j + 1 < s.nprocs)
    (hvalido : Valido N s.nprocs j pc) (hizq : izqDe j pc = izqDe j pc0) (hder0 : derDe j pc0 = j)
    (hder : derDe j pc = j) (hexit : pc0 ≠ .exit) (hfds : tiene j pc = tiene j pc0)
    (hlectura : (j, Extremo.lectura) ∈ tiene j pc0)
    (hescritura : (j, Extremo.escritura) ∈ tiene j pc0) (hleyo : ¬ Leyo pc)
    (hsale : sale N (entra N s j) pc0 = x :: sale N (entra N s j) pc)
    (hmenos : resta N (entra N s j) pc < resta N (entra N s j) pc0)
    (himp : ¬ Impreso pc0) : Avanza N s s' := by
  subst hpc
  have b := hi.bien j hj
  have hder' := (b.der hexit).trans hder0
  rw [Sistema.write, hder', b.fds, if_neg (not_not.mpr hescritura), if_neg] at h
  · split at h
    · rw [← Option.some.inj h]
      refine hi.escribe hj hmid ⟨hvalido, b.izq.trans hizq.symm, ?_, b.fds.trans hfds.symm,
        b.hijo, fun h => absurd h hleyo⟩ hsale hmenos himp
      exact fun _ => hder'.trans hder.symm
    · cases h
  · refine not_not.mpr ⟨j, hj, ?_⟩
    rw [b.fds]
    exact hlectura

/-- While nobody can write to the pipe on the left of process `j`, what it still reads is in
the pipe. -/
theorem Inv.entra_de_cerrado (h1 : 1 ≤ j) (hnadie : ¬ s.Abierto (j - 1, .escritura)) :
    entra N s j = s.pipes (j - 1) := by
  obtain ⟨i, rfl⟩ : ∃ i, j = i + 1 := ⟨j - 1, by omega⟩
  have b := hi.bien i (by omega)
  have hno : (i, Extremo.escritura) ∉ tiene i (s.procs i).pc := by
    rw [← b.fds]
    exact fun hmem => hnadie ⟨i, by omega, hmem⟩
  have hsale : sale N (entra N s i) (s.procs i).pc = [] := by
    revert hno
    cases (s.procs i).pc <;> simp [tiene, sale]
  rw [entra, hsale, List.append_nil, Nat.add_sub_cancel]

/-- A process reads from its left pipe. -/
theorem Inv.read {pc : Int → Pc} {pcFin pc0 : Pc} {s' : Sistema} (h : s.read j pc pcFin = some s')
    (hpc : (s.procs j).pc = pc0) (h1 : 1 ≤ j) (hvalido : ∀ x, Valido N s.nprocs j (pc x))
    (hvalidoFin : Valido N s.nprocs j pcFin)
    (hizq0 : izqDe j pc0 = j - 1) (hizq : ∀ x, izqDe j (pc x) = j - 1)
    (hizqFin : izqDe j pcFin = j - 1) (hder : ∀ x, derDe j (pc x) = derDe j pc0)
    (hderFin : derDe j pcFin = derDe j pc0) (hexit : pc0 ≠ .exit)
    (hfds : ∀ x, tiene j (pc x) = tiene j pc0) (hfdsFin : tiene j pcFin = tiene j pc0)
    (hlectura : (j - 1, Extremo.lectura) ∈ tiene j pc0) (hleyo : ∀ x, ¬ Leyo (pc x))
    (hsale : ∀ x l, sale N l (pc x) = sale N (x :: l) pc0)
    (hsaleFin : sale N [] pcFin = sale N [] pc0)
    (hmenos : ∀ x l, resta N l (pc x) < resta N (x :: l) pc0)
    (hmenosFin : resta N [] pcFin < resta N [] pc0)
    (hpropia : (∀ x, propia (pc x) = propia pc0) ∧ propia pcFin = propia pc0)
    (hpor : j + 1 = s.nprocs → (∀ x l, porImprimir N j l (pc x) = porImprimir N j (x :: l) pc0) ∧
      porImprimir N j [] pcFin = porImprimir N j [] pc0)
    (himp : ¬ Impreso pc0) : Avanza N s s' := by
  subst hpc
  have b := hi.bien j hj
  have hizq' := b.izq.trans hizq0
  rw [Sistema.read, hizq', b.fds, if_neg (not_not.mpr hlectura)] at h
  cases hbuf : s.pipes (j - 1) with
  | cons x xs =>
    simp only [hbuf, Option.some.injEq] at h
    obtain ⟨l, hl⟩ : ∃ l, entra N s j = x :: l := by
      obtain ⟨i, rfl⟩ : ∃ i, j = i + 1 := ⟨j - 1, by omega⟩
      rw [Nat.add_sub_cancel] at hbuf
      exact ⟨_, by rw [entra, hbuf, List.cons_append]⟩
    rw [← h]
    refine hi.lee hj h1 hbuf hl ⟨hvalido x, hizq'.trans (hizq x).symm, ?_,
      b.fds.trans (hfds x).symm, b.hijo, fun h => absurd h (hleyo x)⟩ ?_ ?_ ?_ himp
    · exact fun _ => (b.der hexit).trans (hder x).symm
    · rw [hl]
      exact hsale x l
    · rw [hl]
      exact hmenos x l
    · intro hlast
      rw [hl]
      exact ⟨hpropia.1 x, (hpor hlast).1 x l⟩
  | nil =>
    simp only [hbuf] at h
    split at h
    · cases h
    · next hnadie =>
      have hl : entra N s j = [] := (hi.entra_de_cerrado hj h1 hnadie).trans hbuf
      rw [← Option.some.inj h]
      refine hi.setProc hj ⟨hvalidoFin, hizq'.trans hizqFin.symm, ?_, b.fds.trans hfdsFin.symm,
        b.hijo, fun _ _ => ⟨hl, rfl⟩⟩ ?_ ?_ ?_ himp
      · exact fun _ => (b.der hexit).trans hderFin.symm
      · rw [hl]
        exact hsaleFin
      · rw [hl]
        exact hmenosFin
      · intro hlast
        rw [hl]
        exact ⟨hpropia.2, (hpor hlast).2⟩

end

end SisOp.Primes
