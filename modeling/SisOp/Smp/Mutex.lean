/-
# `SisOp.Smp.Mutex` — the spin lock behaves as an atomic one

`Atomic` is what the lock is for: taken and given back in one step, by one CPU at a
time, with the two tests of `holding` answered exactly and the data it guards in plain
memory.  `Sim` relates a state of the instruction-level machine to it, `Sim.step` is one
step and `spinlock_atomic` a whole run.  The store buffers do not show: a CPU without the
lock has nothing queued for a guarded word, because its last `xchg` emptied its queue.
-/
import SisOp.Smp.Spinlock

set_option linter.unusedSectionVars false

namespace SisOp.Smp

open SisOp.Lib

variable {κ δ : Type} [DecidableEq κ] [DecidableEq δ]

/-! ## The atomic lock -/

/-- Who has the lock, what its `get_caller_pcs` found, and the data under it. -/
structure Lock (κ δ : Type) where
  holder : Option κ
  chain : List Nat
  data : δ → Nat

/-- The steps of a lock that is one word in a memory without queues. -/
inductive Atomic (G : δ → Prop) : Lock κ δ → Event κ δ → Lock κ δ → Prop
  | tau {l : Lock κ δ} (c : κ) : Atomic G l (.tau c) l
  | flush {l : Lock κ δ} (c : κ) : Atomic G l (.flush c) l
  | callLock {l : Lock κ δ} (c : κ) : Atomic G l (.callLock c) l
  | locked {l : Lock κ δ} (c : κ) (h : l.holder = some c) : Atomic G l (.locked c) l
  | callUnlock {l : Lock κ δ} (c : κ) : Atomic G l (.callUnlock c) l
  | goSpin {l : Lock κ δ} {c : κ} (h : l.holder ≠ some c) : Atomic G l (.goSpin c) l
  | lockPanic {l : Lock κ δ} {c : κ} (h : l.holder = some c) : Atomic G l (.lockPanic c) l
  | acquire {l : Lock κ δ} (c : κ) (chain : List Nat) (h : l.holder = none) :
      Atomic G l (.acquire c chain) { l with holder := some c, chain := chain }
  | mayUnlock {l : Lock κ δ} {c : κ} (h : l.holder = some c) : Atomic G l (.mayUnlock c) l
  | unlockPanic {l : Lock κ δ} {c : κ} (h : l.holder ≠ some c) : Atomic G l (.unlockPanic c) l
  | release {l : Lock κ δ} {c : κ} (h : l.holder = some c) :
      Atomic G l (.release c) { l with holder := none }
  | store {l : Lock κ δ} {c : κ} {d : δ} (v : Nat) (hd : G d) (h : l.holder = some c) :
      Atomic G l (.store c d v) { l with data := Function.update l.data d v }
  | load {l : Lock κ δ} {c : κ} {d : δ} (hd : G d) (h : l.holder = some c) :
      Atomic G l (.load c d (l.data d)) l
  | storeFree {l : Lock κ δ} {d : δ} (c : κ) (v : Nat) (hd : ¬ G d) : Atomic G l (.store c d v) l
  | loadFree {l : Lock κ δ} {d : δ} (c : κ) (v : Nat) (hd : ¬ G d) : Atomic G l (.load c d v) l

/-- Who has the lock after an event. -/
def holderAfter (h : Option κ) : Event κ δ → Option κ
  | .acquire c _ => some c
  | .release _ => none
  | _ => h

/-- The client's side: a guarded datum is touched by the CPU that has the lock. -/
def Allowed (G : δ → Prop) (h : Option κ) : Event κ δ → Prop
  | .store c d _ | .load c d _ => G d → h = some c
  | _ => True

/-- Every event of a run is allowed when it happens. -/
def Disciplined (G : δ → Prop) : Option κ → List (Event κ δ) → Prop
  | _, [] => True
  | h, e :: tr => Allowed G h e ∧ Disciplined G (holderAfter h e) tr

/-! ## The relation -/

/-- The words that only the CPU with the lock writes with plain stores. -/
def Covered (G : δ → Prop) : Addr δ → Prop
  | .locked => False
  | .cpu | .pcs _ => True
  | .data d => G d

/-- What the CPU with the lock reads in its debugging fields, by where it is. -/
def Holding (cpus : Cpus κ) (chain : List Nat) (c : κ) (view : Addr δ → Nat) : Pc → Prop
  | .setCpu ch => chain = ch
  | .setPcs i rest => view .cpu = cpus.thiscpu c ∧ chain.drop i = rest ∧
      ∀ j < i, j < chain.length → chain[j]? = some (view (.pcs j))
  | .client | .lockLocked _ | .lockCpu _ | .unlockLocked | .unlockCpu | .clearPcs =>
      view .cpu = cpus.thiscpu c ∧ ∀ j < chain.length, chain[j]? = some (view (.pcs j))
  | .release => view .cpu = 0
  | .spin _ => False
  | .clearCpu | .panicked => True

/-- Where a CPU without the lock may be. -/
def Outside : Pc → Prop
  | .setCpu _ | .setPcs _ _ | .clearPcs | .clearCpu | .release => False
  | _ => True

theorem Holding.congr {cpus : Cpus κ} {chain : List Nat} {c : κ} {view view' : Addr δ → Nat}
    (hcpu : view' .cpu = view .cpu) (hpcs : ∀ j, view' (.pcs j) = view (.pcs j)) {p : Pc}
    (h : Holding cpus chain c view p) : Holding cpus chain c view' p := by
  cases p <;> simp only [Holding, hcpu, hpcs] at h ⊢ <;> exact h

/-- The instruction-level state `s` is a state of the atomic lock `l`. -/
structure Sim (cpus : Cpus κ) (G : δ → Prop) (s : State κ δ) (l : Lock κ δ) : Prop where
  word : s.tso.mem .locked = if l.holder = none then 0 else 1
  quietWord : ∀ c, s.tso.Quiet c .locked
  quiet : ∀ c, l.holder ≠ some c → ∀ a, Covered G a → s.tso.Quiet c a
  bufCpu : ∀ c, ∀ w ∈ s.tso.buf c, w.1 = .cpu → w.2 = 0 ∨ w.2 = cpus.thiscpu c
  memCpu : s.tso.mem .cpu = 0 ∨ ∃ c, l.holder = some c ∧ s.tso.mem .cpu = cpus.thiscpu c
  holding : ∀ c, l.holder = some c → Holding cpus l.chain c (s.tso.view c) (s.pc c)
  outside : ∀ c, l.holder ≠ some c → Outside (s.pc c)
  held : ∀ c, l.holder = some c → ∀ d, G d → s.tso.view c (.data d) = l.data d
  free : l.holder = none → ∀ d, G d → s.tso.mem (.data d) = l.data d

theorem sim_initial (cpus : Cpus κ) (G : δ → Prop) (mem : δ → Nat) :
    Sim cpus G (initial mem) ⟨none, [], mem⟩ where
  word := rfl
  quietWord _ _ hw := absurd hw List.not_mem_nil
  quiet _ _ _ _ _ hw := absurd hw List.not_mem_nil
  bufCpu _ _ hw := absurd hw List.not_mem_nil
  memCpu := .inl rfl
  holding _ h := by cases h
  outside _ _ := trivial
  held _ h := by cases h
  free _ _ _ := rfl

section

variable {cpus : Cpus κ} {G : δ → Prop} {s : State κ δ} {l : Lock κ δ} {c : κ}

/-! ## What a CPU reads of the lock -/

theorem Sim.view_locked (h : Sim cpus G s l) (c : κ) :
    s.tso.view c .locked = if l.holder = none then 0 else 1 := by
  rw [Machine.view_of_quiet (h.quietWord c), h.word]

/-- A CPU without the lock never finds itself in `lock->cpu`. -/
theorem Sim.view_cpu_ne (h : Sim cpus G s l) (hc : l.holder ≠ some c) :
    s.tso.view c .cpu ≠ cpus.thiscpu c := by
  rw [Machine.view_of_quiet (h.quiet c hc .cpu trivial)]
  rcases h.memCpu with h0 | ⟨d, hd, hmem⟩
  · rw [h0]
    exact (cpus.ne_zero c).symm
  · intro heq
    obtain rfl : d = c := cpus.injective (hmem.symm.trans heq)
    exact hc hd

/-! ## The kinds of steps -/

/-- A CPU moves on and touches nothing. -/
theorem Sim.goto (h : Sim cpus G s l) {p : Pc}
    (hin : l.holder = some c → Holding cpus l.chain c (s.tso.view c) p)
    (hout : l.holder ≠ some c → Outside p) : Sim cpus G (s.goto c p) l where
  word := h.word
  quietWord := h.quietWord
  quiet := h.quiet
  bufCpu := h.bufCpu
  memCpu := h.memCpu
  holding d hd := by
    by_cases hdc : d = c
    · subst hdc
      simpa only [State.goto, Function.update_self] using hin hd
    · simpa only [State.goto, Function.update_of_ne hdc] using h.holding d hd
  outside d hd := by
    by_cases hdc : d = c
    · subst hdc
      simpa only [State.goto, Function.update_self] using hout hd
    · simpa only [State.goto, Function.update_of_ne hdc] using h.outside d hd
  held := h.held
  free := h.free

/-- The CPU with the lock stores to a covered word. -/
theorem Sim.put (h : Sim cpus G s l) (hc : l.holder = some c) {a : Addr δ} {v : Nat} {p : Pc}
    {data : δ → Nat} (ha : Covered G a) (hcpu : a = .cpu → v = 0 ∨ v = cpus.thiscpu c)
    (hin : Holding cpus l.chain c (Function.update (s.tso.view c) a v) p)
    (hdata : ∀ d, G d → Function.update (s.tso.view c) a v (.data d) = data d) :
    Sim cpus G (s.put c a v p) { l with data := data } where
  word := h.word
  quietWord d := (h.quietWord d).store_of_ne fun _ heq => by rw [← heq] at ha; exact ha
  quiet d hd x hx := by
    have hdc : d ≠ c := fun hdc => hd (hdc ▸ hc)
    exact (h.quiet d hd x hx).store_of_ne fun hdc' => absurd hdc' hdc
  bufCpu d w hw hwa := by
    by_cases hdc : d = c
    · subst hdc
      rw [State.put, Machine.store_buf_self, List.mem_append, List.mem_singleton] at hw
      rcases hw with hw | rfl
      · exact h.bufCpu d w hw hwa
      · exact hcpu hwa
    · rw [State.put, Machine.store_buf_of_ne hdc] at hw
      exact h.bufCpu d w hw hwa
  memCpu := h.memCpu
  holding d hd := by
    obtain rfl : c = d := Option.some.inj (hc.symm.trans hd)
    simpa only [State.put, Machine.view_store_self, Function.update_self] using hin
  outside d hd := by
    have hdc : d ≠ c := fun hdc => hd (hdc ▸ hc)
    simpa only [State.put, Function.update_of_ne hdc] using h.outside d hd
  held d hd x hx := by
    obtain rfl : c = d := Option.some.inj (hc.symm.trans hd)
    simpa only [State.put, Machine.view_store_self] using hdata x hx
  free hn := by
    rw [show l.holder = none from hn] at hc
    cases hc

/-- Any CPU stores to a word that is not covered. -/
theorem Sim.putFree (h : Sim cpus G s l) {d : δ} {v : Nat} (hd : ¬ G d) (hpc : s.pc c = .client) :
    Sim cpus G (s.put c (.data d) v .client) l where
  word := h.word
  quietWord x := (h.quietWord x).store_of_ne fun _ heq => by cases heq
  quiet x hx a ha := (h.quiet x hx a ha).store_of_ne fun _ heq => hd (by rw [heq] at ha; exact ha)
  bufCpu x w hw hwa := by
    by_cases hxc : x = c
    · subst hxc
      rw [State.put, Machine.store_buf_self, List.mem_append, List.mem_singleton] at hw
      rcases hw with hw | rfl
      · exact h.bufCpu x w hw hwa
      · cases hwa
    · rw [State.put, Machine.store_buf_of_ne hxc] at hw
      exact h.bufCpu x w hw hwa
  memCpu := h.memCpu
  holding x hx := by
    by_cases hxc : x = c
    · subst hxc
      have hold := h.holding x hx
      rw [hpc] at hold
      simp only [State.put, Machine.view_store_self, Function.update_self]
      exact hold.congr (Function.update_of_ne (by simp) ..)
        fun j => Function.update_of_ne (by simp) ..
    · simpa only [State.put, Machine.view_store_of_ne hxc, Function.update_of_ne hxc] using
        h.holding x hx
  outside x hx := by
    by_cases hxc : x = c
    · subst hxc
      simp only [State.put, Function.update_self, Outside]
    · simpa only [State.put, Function.update_of_ne hxc] using h.outside x hx
  held x hx e he := by
    by_cases hxc : x = c
    · subst hxc
      have hne : e ≠ d := fun heq => hd (heq ▸ he)
      simp only [State.put, Machine.view_store_self]
      rw [Function.update_of_ne (by simpa using hne)]
      exact h.held x hx e he
    · simpa only [State.put, Machine.view_store_of_ne hxc] using h.held x hx e he
  free := h.free

/-- A queued store reaches the memory. -/
theorem Sim.flush (h : Sim cpus G s l) {w : Addr δ × Nat} {ws : List (Addr δ × Nat)}
    (hbuf : s.tso.buf c = w :: ws) : Sim cpus G { s with tso := s.tso.flush c w ws } l := by
  have hw : w ∈ s.tso.buf c := hbuf ▸ List.mem_cons_self
  have hword : Addr.locked ≠ w.1 := (h.quietWord c w hw).symm
  -- the view of the CPU with the lock, at the words that matter to it
  have hview : ∀ d, l.holder = some d → ∀ a, Covered G a →
      (s.tso.flush c w ws).view d a = s.tso.view d a := by
    intro d hd a ha
    by_cases hdc : d = c
    · subst hdc
      rw [Machine.view_flush_self hbuf]
    · have hc : l.holder ≠ some c := fun hc => hdc (Option.some.inj (hd.symm.trans hc))
      have hne : a ≠ w.1 := (h.quiet c hc a ha w hw).symm
      exact Machine.view_flush_of_ne hdc hne
  refine ⟨?_, fun d => (h.quietWord d).flush hbuf, fun d hd a ha => (h.quiet d hd a ha).flush hbuf,
    fun d u hu => h.bufCpu d u (Machine.mem_flush_buf hbuf hu), ?_, ?_, h.outside, ?_, ?_⟩
  · rw [show ({ s with tso := s.tso.flush c w ws } : State κ δ).tso = s.tso.flush c w ws from rfl,
      Machine.flush_mem_of_ne hword, h.word]
  · by_cases hcpu : w.1 = .cpu
    · have hc : l.holder = some c := by
        by_contra hc
        exact h.quiet c hc .cpu trivial w hw hcpu
      have hmem : (s.tso.flush c w ws).mem .cpu = w.2 := hcpu ▸ Function.update_self ..
      exact (h.bufCpu c w hw hcpu).imp hmem.trans fun hv => ⟨c, hc, hmem.trans hv⟩
    · have hmem : (s.tso.flush c w ws).mem .cpu = s.tso.mem .cpu :=
        Machine.flush_mem_of_ne (Ne.symm hcpu)
      exact h.memCpu.imp hmem.trans fun ⟨d, hd, hv⟩ => ⟨d, hd, hmem.trans hv⟩
  · intro d hd
    exact (h.holding d hd).congr (hview d hd .cpu trivial) fun j => hview d hd (.pcs j) trivial
  · intro d hd x hx
    exact (hview d hd (.data x) hx).trans (h.held d hd x hx)
  · intro hn x hx
    have hc : l.holder ≠ some c := hn ▸ (Option.some_ne_none c).symm
    have hne : Addr.data x ≠ w.1 := (h.quiet c hc (.data x) hx w hw).symm
    exact (Machine.flush_mem_of_ne hne).trans (h.free hn x hx)

/-- The exchange on `locked`, made with an empty queue. -/
theorem Sim.xchg (h : Sim cpus G s l) (hbuf : s.tso.buf c = []) {v : Nat} {p : Pc} {l' : Lock κ δ}
    (hv : v = if l'.holder = none then 0 else 1) (hdata : l'.data = l.data)
    (hothers : ∀ d, d ≠ c → (l'.holder = some d ↔ l.holder = some d))
    (hchain : ∀ d, d ≠ c → l.holder = some d → l'.chain = l.chain)
    (hcpu : s.tso.mem .cpu = 0 ∨
      ∃ d, l'.holder = some d ∧ s.tso.mem .cpu = cpus.thiscpu d)
    (hin : l'.holder = some c → Holding cpus l'.chain c s.tso.mem p)
    (hout : l'.holder ≠ some c → Outside p)
    (hmem : l'.holder = some c ∨ l'.holder = none → ∀ d, G d → s.tso.mem (.data d) = l.data d) :
    Sim cpus G (s.xchg c v p) l' := by
  have hview : ∀ d, ∀ a, a ≠ .locked → (s.xchg c v p).tso.view d a = s.tso.view d a := by
    intro d a ha
    exact drain_congr (Machine.poke_mem_of_ne ha)
  have hown : s.tso.view c = s.tso.mem := Machine.view_of_empty hbuf
  refine ⟨hv ▸ Machine.poke_mem_self .., h.quietWord, ?_, h.bufCpu, ?_, ?_, ?_, ?_, ?_⟩
  · intro d hd a ha
    by_cases hdc : d = c
    · exact hdc ▸ Machine.quiet_of_empty hbuf a
    · exact h.quiet d (fun hd' => hd ((hothers d hdc).mpr hd')) a ha
  · rwa [show (s.xchg c v p).tso.mem .cpu = s.tso.mem .cpu from Machine.poke_mem_of_ne (by simp)]
  · intro d hd
    by_cases hdc : d = c
    · subst hdc
      simp only [State.xchg, Function.update_self]
      refine (hin hd).congr ?_ fun j => ?_
      · exact (hview d .cpu (by simp)).trans (congrFun hown _)
      · exact (hview d (.pcs j) (by simp)).trans (congrFun hown _)
    · have hd' := (hothers d hdc).mp hd
      rw [show (s.xchg c v p).pc d = s.pc d from Function.update_of_ne hdc .., hchain d hdc hd']
      exact (h.holding d hd').congr (hview d .cpu (by simp)) fun j => hview d (.pcs j) (by simp)
  · intro d hd
    by_cases hdc : d = c
    · subst hdc
      simpa only [State.xchg, Function.update_self] using hout hd
    · rw [show (s.xchg c v p).pc d = s.pc d from Function.update_of_ne hdc ..]
      exact h.outside d fun hd' => hd ((hothers d hdc).mpr hd')
  · intro d hd x hx
    rw [hview d (.data x) (by simp), hdata]
    by_cases hdc : d = c
    · subst hdc
      rw [hown]
      exact hmem (.inl hd) x hx
    · exact h.held d ((hothers d hdc).mp hd) x hx
  · intro hn x hx
    rw [hdata, show (s.xchg c v p).tso.mem (.data x) = s.tso.mem (.data x) from
      Machine.poke_mem_of_ne (by simp)]
    exact hmem (.inr hn) x hx

/-- A CPU that moves on in its own call keeps what it reads. -/
theorem Sim.holding_at (h : Sim cpus G s l) {p : Pc} (hpc : s.pc c = p) (hc : l.holder = some c) :
    Holding cpus l.chain c (s.tso.view c) p :=
  hpc ▸ h.holding c hc

/-- A CPU past the exchange, or before the one that gives the lock back, has the lock. -/
theorem Sim.holder_of (h : Sim cpus G s l) (hc : ¬ Outside (s.pc c)) : l.holder = some c := by
  by_contra hn
  exact hc (h.outside c hn)

/-- A CPU that spins does not have the lock. -/
theorem Sim.not_holder (h : Sim cpus G s l) {chain : List Nat} (hpc : s.pc c = .spin chain) :
    l.holder ≠ some c := fun hc => h.holding_at hpc hc

/-- A CPU that reads `locked` set and itself in `cpu` has the lock. -/
theorem Sim.holder_of_cpu (h : Sim cpus G s l) (hcpu : s.tso.view c .cpu = cpus.thiscpu c) :
    l.holder = some c := by
  by_contra hn
  exact h.view_cpu_ne hn hcpu

/-- The CPU with the lock reads `locked` set. -/
theorem Sim.view_locked_ne (h : Sim cpus G s l) (hc : l.holder = some c) :
    s.tso.view c .locked ≠ 0 := by
  rw [h.view_locked, hc, if_neg (Option.some_ne_none c)]
  exact Nat.one_ne_zero

end

/-! ## One step, a whole run -/

theorem Sim.step {cpus : Cpus κ} {G : δ → Prop} {s s' : State κ δ} {l : Lock κ δ} {e : Event κ δ}
    (h : Sim cpus G s l) (hs : Step cpus s e s') (hG : Allowed G l.holder e) :
    ∃ l', Atomic G l e l' ∧ Sim cpus G s' l' ∧ l'.holder = holderAfter l.holder e := by
  cases hs with
  | @callLock c stack ebp hpc =>
    exact ⟨l, .callLock c, h.goto (fun hc => (h.holding_at hpc hc :)) (fun _ => trivial), rfl⟩
  | @lockFree c chain hpc hv =>
    have hc : l.holder ≠ some c := fun hc => h.view_locked_ne hc hv
    exact ⟨l, .goSpin hc, h.goto (fun hc' => absurd hc' hc) (fun _ => trivial), rfl⟩
  | @lockTaken c chain hpc hv =>
    exact ⟨l, .tau c, h.goto (fun hc => (h.holding_at hpc hc :)) (fun _ => trivial), rfl⟩
  | @lockOther c chain hpc hv =>
    have hc : l.holder ≠ some c := fun hc => hv (h.holding_at hpc hc).1
    exact ⟨l, .goSpin hc, h.goto (fun hc' => absurd hc' hc) (fun _ => trivial), rfl⟩
  | @lockMine c chain hpc hv =>
    exact ⟨l, .lockPanic (h.holder_of_cpu hv), h.goto (fun _ => trivial) (fun _ => trivial), rfl⟩
  | @spinAgain c chain hpc hbuf hv =>
    have hc := h.not_holder hpc
    have hsome : l.holder ≠ none := fun hn => hv (by rw [h.word, hn, if_pos rfl])
    refine ⟨l, .tau c, h.xchg hbuf (by rw [if_neg hsome]) rfl (fun _ _ => Iff.rfl) (fun _ _ _ => rfl)
      h.memCpu (fun hc' => absurd hc' hc) (fun _ => trivial) ?_, rfl⟩
    rintro (hc' | hn)
    · exact absurd hc' hc
    · exact absurd hn hsome
  | @acquire c chain hpc hbuf hv =>
    have hn : l.holder = none := by
      by_contra hn
      rw [h.word, if_neg hn] at hv
      exact Nat.one_ne_zero hv
    refine ⟨_, .acquire c chain hn, h.xchg hbuf rfl rfl ?_ ?_ ?_ (fun _ => rfl) ?_ (fun _ => h.free hn), rfl⟩
    · intro d hd
      rw [hn]
      exact iff_of_false (fun heq => hd (Option.some.inj heq).symm) (Option.some_ne_none d).symm
    · intro d _ hd
      rw [hn] at hd
      cases hd
    · rcases h.memCpu with h0 | ⟨d, hd, _⟩
      · exact .inl h0
      · rw [hn] at hd
        cases hd
    · exact fun hc => absurd rfl hc
  | @setCpu c chain hpc =>
    have hc := h.holder_of (c := c) (by rw [hpc]; exact id)
    have hch : l.chain = chain := h.holding_at hpc hc
    refine ⟨l, .tau c, h.put hc trivial (fun _ => .inr rfl) ⟨Function.update_self .., ?_, ?_⟩
      (fun d hd => (Function.update_of_ne (by simp) ..).trans (h.held c hc d hd)), rfl⟩
    · rw [hch, List.drop_zero]
    · exact fun j hj => absurd hj (Nat.not_lt_zero j)
  | @setPcs c i w rest hpc =>
    have hc := h.holder_of (c := c) (by rw [hpc]; exact id)
    obtain ⟨hcpu, hdrop, hpcs⟩ := h.holding_at hpc hc
    have hget : l.chain[i]? = some w := by
      rw [← List.head?_drop, hdrop, List.head?_cons]
    refine ⟨l, .tau c, h.put hc trivial (fun heq => by cases heq) ⟨?_, ?_, ?_⟩
      (fun d hd => (Function.update_of_ne (by simp) ..).trans (h.held c hc d hd)), rfl⟩
    · rwa [Function.update_of_ne (by simp)]
    · rw [← List.drop_drop, hdrop, List.drop_one, List.tail_cons]
    · intro j hj hlt
      by_cases hji : j = i
      · rw [hji, Function.update_self, hget]
      · rw [Function.update_of_ne (by simpa using hji)]
        exact hpcs j (by omega) hlt
  | @locked c i hpc =>
    have hc := h.holder_of (c := c) (by rw [hpc]; exact id)
    obtain ⟨hcpu, hdrop, hpcs⟩ := h.holding_at hpc hc
    have hlen : l.chain.length ≤ i := List.drop_eq_nil_iff.mp hdrop
    exact ⟨l, .locked c hc, h.goto (fun _ => ⟨hcpu, fun j hj => hpcs j (by omega) hj⟩)
      (fun _ => trivial), rfl⟩
  | @callUnlock c hpc =>
    exact ⟨l, .callUnlock c, h.goto (fun hc => (h.holding_at hpc hc :)) (fun _ => trivial), rfl⟩
  | @unlockFree c hpc hv =>
    have hc : l.holder ≠ some c := fun hc => h.view_locked_ne hc hv
    exact ⟨l, .unlockPanic hc, h.goto (fun _ => trivial) (fun _ => trivial), rfl⟩
  | @unlockTaken c hpc hv =>
    exact ⟨l, .tau c, h.goto (fun hc => (h.holding_at hpc hc :)) (fun _ => trivial), rfl⟩
  | @unlockOther c hpc hv =>
    have hc : l.holder ≠ some c := fun hc => hv (h.holding_at hpc hc).1
    exact ⟨l, .unlockPanic hc, h.goto (fun _ => trivial) (fun _ => trivial), rfl⟩
  | @unlockMine c hpc hv =>
    have hc := h.holder_of_cpu hv
    exact ⟨l, .mayUnlock hc, h.goto (fun _ => (h.holding_at hpc hc :)) (fun hn => absurd hc hn), rfl⟩
  | @clearPcs c hpc =>
    have hc := h.holder_of (c := c) (by rw [hpc]; exact id)
    exact ⟨l, .tau c, h.put hc trivial (fun heq => by cases heq) trivial
      (fun d hd => (Function.update_of_ne (by simp) ..).trans (h.held c hc d hd)), rfl⟩
  | @clearCpu c hpc =>
    have hc := h.holder_of (c := c) (by rw [hpc]; exact id)
    exact ⟨l, .tau c, h.put hc trivial (fun _ => .inl rfl) (Function.update_self ..)
      (fun d hd => (Function.update_of_ne (by simp) ..).trans (h.held c hc d hd)), rfl⟩
  | @release c hpc hbuf =>
    have hc := h.holder_of (c := c) (by rw [hpc]; exact id)
    have hown : s.tso.view c = s.tso.mem := Machine.view_of_empty hbuf
    have hcpu : s.tso.mem .cpu = 0 := hown ▸ h.holding_at hpc hc
    refine ⟨_, .release hc, h.xchg hbuf rfl rfl ?_ ?_ (.inl hcpu) (fun hn => by cases hn)
      (fun _ => trivial) (fun _ d hd => hown ▸ h.held c hc d hd), rfl⟩
    · intro d hd
      rw [hc]
      exact iff_of_false (Option.some_ne_none d).symm fun heq => hd (Option.some.inj heq).symm
    · intro d hd hd'
      exact absurd (Option.some.inj (hc.symm.trans hd')).symm hd
  | @flush c w ws hbuf => exact ⟨l, .flush c, h.flush hbuf, rfl⟩
  | @store c d v hpc =>
    by_cases hd : G d
    · have hc : l.holder = some c := hG hd
      refine ⟨_, .store v hd hc, h.put hc hd (fun heq => by cases heq) ?_ ?_, rfl⟩
      · exact (h.holding_at hpc hc).congr (Function.update_of_ne (by simp) ..)
          fun j => Function.update_of_ne (by simp) ..
      · intro x hx
        by_cases hxd : x = d
        · rw [hxd, Function.update_self, Function.update_self]
        · rw [Function.update_of_ne (by simpa using hxd), Function.update_of_ne hxd,
            h.held c hc x hx]
    · exact ⟨l, .storeFree c v hd, h.putFree hd hpc, rfl⟩
  | @load c d hpc =>
    by_cases hd : G d
    · have hc : l.holder = some c := hG hd
      rw [h.held c hc d hd]
      exact ⟨l, .load hd hc, h, rfl⟩
    · exact ⟨l, .loadFree c _ hd, h, rfl⟩

theorem Sim.run {cpus : Cpus κ} {G : δ → Prop} {s s' : State κ δ} {tr : List (Event κ δ)}
    (hrun : Run (Step cpus) s tr s') :
    ∀ {l : Lock κ δ}, Sim cpus G s l → Disciplined G l.holder tr →
      ∃ l', Run (Atomic G) l tr l' ∧ Sim cpus G s' l' := by
  induction hrun with
  | nil s => exact fun h _ => ⟨_, .nil _, h⟩
  | cons hs _ ih =>
    intro l h hdisc
    obtain ⟨l', hatomic, h', hholder⟩ := h.step hs hdisc.1
    obtain ⟨l'', hrest, h''⟩ := ih h' (hholder ▸ hdisc.2)
    exact ⟨l'', .cons hatomic hrest, h''⟩

/-- The instruction-level lock is an atomic one. -/
theorem spinlock_atomic {cpus : Cpus κ} {G : δ → Prop} {mem : δ → Nat} {tr : List (Event κ δ)}
    {s : State κ δ} (hrun : Run (Step cpus) (initial mem) tr s) (hdisc : Disciplined G none tr) :
    ∃ l, Run (Atomic G) ⟨none, [], mem⟩ tr l ∧
      (s.tso.mem .locked = if l.holder = none then 0 else 1) ∧
      ∀ c, l.holder = some c → s.pc c = .client → s.tso.view c .cpu = cpus.thiscpu c ∧
        ∀ j < l.chain.length, l.chain[j]? = some (s.tso.view c (.pcs j)) := by
  obtain ⟨l, hatomic, hsim⟩ := Sim.run hrun (sim_initial cpus G mem) hdisc
  exact ⟨l, hatomic, hsim.word, fun c hc hpc => hsim.holding_at hpc hc⟩

/-- Two CPUs. -/
def twoCpus : Cpus Bool where
  thiscpu c := if c then 2 else 1
  ne_zero c := by cases c <;> decide
  injective a b h := by cases a <;> cases b <;> first | rfl | cases h

/-- One of them takes the lock while the other one waits for it. -/
def contended : List (Event Bool Unit) :=
  [.callLock false, .callLock true, .goSpin false, .goSpin true, .acquire true (List.replicate 10 0),
    .tau false, .tau true, .flush true]

theorem spinlock_atomic_contended : ∃ (s : State Bool Unit) (l : Lock Bool Unit),
    Run (Step twoCpus) (initial fun _ => 7) contended s ∧
      Run (Atomic fun _ => True) ⟨none, [], fun _ => 7⟩ contended l := by
  have hrun : ∃ s, Run (Step twoCpus) (initial fun _ => 7) contended s :=
    ⟨_, .cons (.callLock (c := false) (fun _ => 0) 0 rfl) (.cons (.callLock (c := true) (fun _ => 0) 0 rfl)
      (.cons (.lockFree (c := false) rfl rfl) (.cons (.lockFree (c := true) rfl rfl)
        (.cons (.acquire (c := true) rfl rfl rfl) (.cons (.spinAgain (c := false) rfl rfl (by decide))
          (.cons (.setCpu (c := true) rfl) (.cons (.flush (c := true) rfl) (.nil _))))))))⟩
  obtain ⟨s, hs⟩ := hrun
  obtain ⟨l, hl, -⟩ := spinlock_atomic (G := fun _ => True) hs (by simp [contended, Disciplined, Allowed])
  exact ⟨s, l, hs, hl⟩

end SisOp.Smp
