/-
# `SisOp.Lib.StoreBuffer` — processors that share a memory through store buffers

Each processor queues its stores and only later, in order, lets them reach the
memory; it reads its own queued stores before the memory.  A locked exchange
waits for the queue to be empty.  What a processor reads is `Machine.view`: the
memory with its own queue written over it.  An address nobody else has queued
(`Quiet`) is read as in plain memory, and draining a queue changes what the others
read only there.
-/
import Mathlib.Logic.Function.Basic
import Mathlib.Data.List.Basic

set_option linter.unusedSectionVars false

namespace SisOp.Lib

variable {κ α β : Type*} [DecidableEq κ] [DecidableEq α]

/-- The memory and, for each processor, the stores it has queued, oldest first. -/
structure Machine (κ α β : Type*) where
  mem : α → β
  buf : κ → List (α × β)

/-- A memory after queued stores, oldest first, have reached it. -/
def drain (mem : α → β) (ws : List (α × β)) : α → β :=
  ws.foldl (fun m w => Function.update m w.1 w.2) mem

@[simp] theorem drain_nil (mem : α → β) : drain mem [] = mem := rfl

@[simp] theorem drain_cons (mem : α → β) (w : α × β) (ws : List (α × β)) :
    drain mem (w :: ws) = drain (Function.update mem w.1 w.2) ws := rfl

theorem drain_append_singleton (mem : α → β) (ws : List (α × β)) (w : α × β) :
    drain mem (ws ++ [w]) = Function.update (drain mem ws) w.1 w.2 := by
  simp only [drain, List.foldl_append, List.foldl_cons, List.foldl_nil]

/-- A queue that does not name an address leaves it. -/
theorem drain_of_ne {mem : α → β} {ws : List (α × β)} {a : α} (h : ∀ w ∈ ws, w.1 ≠ a) :
    drain mem ws a = mem a := by
  induction ws generalizing mem with
  | nil => rfl
  | cons w ws ih =>
    have hw : w.1 ≠ a := h w List.mem_cons_self
    rw [drain_cons, ih (fun u hu => h u (List.mem_cons_of_mem _ hu)),
      Function.update_of_ne hw.symm]

/-- What is read at an address depends on the memory there only. -/
theorem drain_congr {mem mem' : α → β} {ws : List (α × β)} {a : α} (h : mem a = mem' a) :
    drain mem ws a = drain mem' ws a := by
  induction ws generalizing mem mem' with
  | nil => exact h
  | cons w ws ih =>
    rw [drain_cons, drain_cons]
    refine ih ?_
    by_cases hw : a = w.1
    · rw [hw, Function.update_self, Function.update_self]
    · rw [Function.update_of_ne hw, Function.update_of_ne hw, h]

namespace Machine

variable (m : Machine κ α β) (c d : κ) (a : α) (v : β)

/-- What processor `c` reads. -/
def view : α → β := drain m.mem (m.buf c)

/-- Processor `c` queues a store. -/
def store : Machine κ α β :=
  { m with buf := Function.update m.buf c (m.buf c ++ [(a, v)]) }

/-- The memory's side of a locked exchange. -/
def poke : Machine κ α β := { m with mem := Function.update m.mem a v }

/-- The oldest queued store of `c`, with `ws` behind it, reaches the memory. -/
def flush (w : α × β) (ws : List (α × β)) : Machine κ α β where
  mem := Function.update m.mem w.1 w.2
  buf := Function.update m.buf c ws

/-- Processor `c` has queued no store to `a`. -/
def Quiet : Prop := ∀ w ∈ m.buf c, w.1 ≠ a

@[simp] theorem store_mem : (m.store c a v).mem = m.mem := rfl

@[simp] theorem store_buf_self : (m.store c a v).buf c = m.buf c ++ [(a, v)] :=
  Function.update_self ..

@[simp] theorem store_buf_of_ne {m : Machine κ α β} {c d : κ} {a : α} {v : β} (h : d ≠ c) :
    (m.store c a v).buf d = m.buf d :=
  Function.update_of_ne h ..

@[simp] theorem poke_buf : (m.poke a v).buf = m.buf := rfl

@[simp] theorem poke_mem_self : (m.poke a v).mem a = v := Function.update_self ..

@[simp] theorem poke_mem_of_ne {m : Machine κ α β} {a x : α} {v : β} (h : x ≠ a) :
    (m.poke a v).mem x = m.mem x :=
  Function.update_of_ne h ..

variable {m c d a v}

theorem view_of_quiet (h : m.Quiet c a) : m.view c a = m.mem a :=
  drain_of_ne h

theorem view_of_empty (h : m.buf c = []) : m.view c = m.mem := by
  rw [view, h, drain_nil]

theorem quiet_of_empty (h : m.buf c = []) (a : α) : m.Quiet c a := by
  intro w hw
  rw [h] at hw
  exact absurd hw List.not_mem_nil

theorem view_store_self : (m.store c a v).view c = Function.update (m.view c) a v := by
  rw [view, store_buf_self, store_mem, drain_append_singleton, view]

theorem view_store_of_ne (h : d ≠ c) : (m.store c a v).view d = m.view d := by
  rw [view, store_buf_of_ne h, store_mem, view]

/-- Its own draining queue is invisible to a processor. -/
theorem view_flush_self {w : α × β} {ws : List (α × β)} (h : m.buf c = w :: ws) :
    (m.flush c w ws).view c = m.view c := by
  simp only [view, flush, Function.update_self, h, drain_cons]

theorem flush_buf_of_ne {w : α × β} {ws : List (α × β)} (h : d ≠ c) :
    (m.flush c w ws).buf d = m.buf d :=
  Function.update_of_ne h ..

theorem mem_flush_buf {w u : α × β} {ws : List (α × β)} (h : m.buf c = w :: ws)
    (hu : u ∈ (m.flush c w ws).buf d) : u ∈ m.buf d := by
  by_cases hd : d = c
  · subst hd
    rw [show (m.flush d w ws).buf d = ws from Function.update_self ..] at hu
    rw [h]
    exact List.mem_cons_of_mem _ hu
  · rwa [flush_buf_of_ne hd] at hu

/-- Another processor sees a drained store only at its address. -/
theorem flush_mem_of_ne {w : α × β} {ws : List (α × β)} {x : α} (h : x ≠ w.1) :
    (m.flush c w ws).mem x = m.mem x :=
  Function.update_of_ne h ..

theorem view_flush_of_ne {w : α × β} {ws : List (α × β)} {x : α} (hd : d ≠ c) (hx : x ≠ w.1) :
    (m.flush c w ws).view d x = m.view d x := by
  rw [view, flush_buf_of_ne hd, view]
  exact drain_congr (flush_mem_of_ne hx)

theorem Quiet.store_of_ne {x : α} (h : m.Quiet d x) (hx : d = c → x ≠ a) :
    (m.store c a v).Quiet d x := by
  intro w hw
  by_cases hd : d = c
  · subst hd
    rw [store_buf_self, List.mem_append, List.mem_singleton] at hw
    rcases hw with hw | rfl
    · exact h w hw
    · exact (hx rfl).symm
  · exact h w (by rwa [store_buf_of_ne hd] at hw)

theorem Quiet.flush {x : α} {w : α × β} {ws : List (α × β)} (h : m.Quiet d x)
    (hb : m.buf c = w :: ws) : (m.flush c w ws).Quiet d x :=
  fun u hu => h u (mem_flush_buf hb hu)

end Machine

end SisOp.Lib
