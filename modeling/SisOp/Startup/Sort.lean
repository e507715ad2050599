/-
# `SisOp.Startup.Sort` — low pages first

The loop of `check_page_free_list` that deals the free list out on two lists and
joins them.  It rewrites each link after it has passed the cell, so in the middle
the cells dealt out are two trails and the rest is still a chain
(`Sorting.Dealt`).
-/
import SisOp.Jos.MemInit
import SisOp.Jos.Effects
import SisOp.Lib.Chain

namespace SisOp.Jos

open SisOp.Lib

/-- `pp_link` of every page. -/
def Phys.link (m : Phys) (p : Ppn) : Option Ppn := (m.pages p).ppLink

theorem link_setLink (m : Phys) (p : Ppn) (x : Option Ppn) :
    (m.setLink p x).link = Function.update m.link p x := by
  funext q
  rcases eq_or_ne q p with rfl | h
  · simp [Phys.link, Phys.setLink]
  · simp [Phys.link, Phys.setLink, Function.update_of_ne h]

/-- Links may have changed, those outside `cells` have not. -/
structure Relinked (m m' : Phys) (cells : List Ppn) : Prop where
  same : ∃ pages, m' = { m with pages := pages }
  ref : ∀ p, (m'.pages p).ppRef = (m.pages p).ppRef
  link : ∀ p, p ∉ cells → m'.link p = m.link p

theorem Relinked.refl (m : Phys) (cells : List Ppn) : Relinked m m cells :=
  ⟨⟨m.pages, rfl⟩, fun _ => rfl, fun _ _ => rfl⟩

theorem Relinked.setLink {m m' : Phys} {cells : List Ppn} (h : Relinked m m' cells) {p : Ppn}
    (hp : p ∈ cells) (x : Option Ppn) : Relinked m (m'.setLink p x) cells := by
  obtain ⟨⟨pages, rfl⟩, href, hlink⟩ := h
  refine ⟨⟨_, rfl⟩, fun q => ?_, fun q hq => ?_⟩
  · rw [← href q]
    rcases eq_or_ne q p with rfl | hne
    · simp [Phys.setLink]
    · simp [Phys.setLink, Function.update_of_ne hne]
  · have hne : q ≠ p := fun heq => hq (heq ▸ hp)
    rw [link_setLink, Function.update_of_ne hne]
    exact hlink q hq

/-! ## The loop -/

/-- The pages from 4 MB on, which go to the second list. -/
def isHigh (pp : Ppn) : Bool := 1 ≤ (PDX (page2pa pp)).val

/-- In the middle of the loop: `low` and `high` have been dealt out, latest first, and `rest` is
to do. -/
structure Sorting.Dealt (m : Phys) (cells : List Ppn) (s : Sorting) (low high rest : List Ppn) :
    Prop where
  nodup : (low ++ high ++ rest).Nodup
  sub : ∀ p ∈ low ++ high ++ rest, p ∈ cells
  lowTrail : Trail s.phys.link low
  highTrail : Trail s.phys.link high
  tp0 : s.tp0 = low.head?
  tp1 : s.tp1 = high.head?
  pp1 : low ≠ [] → s.pp1 = low.getLast?
  pp2 : high ≠ [] → s.pp2 = high.getLast?
  chain : Chain s.phys.link rest.head? rest
  relinked : Relinked m s.phys cells

namespace Sorting.Dealt

variable {m : Phys} {s : Sorting} {cells low high rest : List Ppn} {pp : Ppn}

/-- `*tp[0] = x` rewrites the link of the latest low page. -/
theorem write0_link (h : Dealt m cells s low high rest) (x : Option Ppn) :
    (s.write0 x).phys.link = low.head?.elim s.phys.link (Function.update s.phys.link · x) ∧
      Relinked m (s.write0 x).phys cells := by
  have htp := h.tp0
  unfold Sorting.write0
  cases low with
  | nil =>
      rw [htp]
      exact ⟨rfl, h.relinked⟩
  | cons p low =>
      rw [htp]
      exact ⟨link_setLink .., h.relinked.setLink (h.sub p (by simp)) x⟩

/-- `*tp[1] = x` rewrites the link of the latest high page. -/
theorem write1_link (h : Dealt m cells s low high rest) (x : Option Ppn) :
    (s.write1 x).phys.link = high.head?.elim s.phys.link (Function.update s.phys.link · x) ∧
      Relinked m (s.write1 x).phys cells := by
  have htp := h.tp1
  unfold Sorting.write1
  cases high with
  | nil =>
      rw [htp]
      exact ⟨rfl, h.relinked⟩
  | cons p high =>
      rw [htp]
      exact ⟨link_setLink .., h.relinked.setLink (h.sub p (by simp)) x⟩

theorem turn_low (h : Dealt m cells s low high (pp :: rest)) (hpp : isHigh pp = false) :
    Dealt m cells (s.turn pp) (pp :: low) high rest ∧
      ((s.turn pp).phys.pages pp).ppLink = rest.head? := by
  have hturn : s.turn pp = { s.write0 (some pp) with tp0 := some pp } :=
    if_neg (by simpa [isHigh] using hpp)
  obtain ⟨hlink, hre⟩ := h.write0_link (some pp)
  obtain ⟨hlow, hhigh, hrest, hnext⟩ :=
    Trail.deal h.lowTrail h.highTrail h.chain h.nodup hlink
  have hperm : (low ++ high ++ pp :: rest).Perm (pp :: low ++ high ++ rest) := List.perm_middle
  rw [hturn]
  refine ⟨⟨hperm.nodup_iff.mp h.nodup, fun p hp => h.sub p (hperm.mem_iff.mpr hp), hlow, hhigh, rfl,
    ?_, fun _ => ?_, fun hne => ?_, hrest, hre⟩, hnext⟩
  · have htp := h.tp1
    unfold Sorting.write0
    split <;> exact htp
  · have htp := h.tp0
    unfold Sorting.write0
    cases low with
    | nil =>
        rw [htp]
        rfl
    | cons p low =>
        rw [htp]
        simpa using h.pp1 (by simp)
  · have hpp2 := h.pp2 hne
    unfold Sorting.write0
    split <;> exact hpp2

theorem turn_high (h : Dealt m cells s low high (pp :: rest)) (hpp : isHigh pp = true) :
    Dealt m cells (s.turn pp) low (pp :: high) rest ∧
      ((s.turn pp).phys.pages pp).ppLink = rest.head? := by
  have hturn : s.turn pp = { s.write1 (some pp) with tp1 := some pp } :=
    if_pos (by simpa [isHigh] using hpp)
  obtain ⟨hlink, hre⟩ := h.write1_link (some pp)
  have hnodup : (high ++ low ++ pp :: rest).Nodup :=
    (List.perm_append_comm.append_right _).nodup_iff.mp h.nodup
  obtain ⟨hhigh, hlow, hrest, hnext⟩ :=
    Trail.deal h.highTrail h.lowTrail h.chain hnodup hlink
  have hperm : (low ++ high ++ pp :: rest).Perm (low ++ (pp :: high) ++ rest) := by
    simp only [List.append_assoc, List.cons_append]
    exact List.perm_middle.append_left low
  rw [hturn]
  refine ⟨⟨hperm.nodup_iff.mp h.nodup, fun p hp => h.sub p (hperm.mem_iff.mpr hp), hlow, hhigh, ?_,
    rfl, fun hne => ?_, fun _ => ?_, hrest, hre⟩, hnext⟩
  · have htp := h.tp0
    unfold Sorting.write1
    split <;> exact htp
  · have hpp1 := h.pp1 hne
    unfold Sorting.write1
    split <;> exact hpp1
  · have htp := h.tp1
    unfold Sorting.write1
    cases high with
    | nil =>
        rw [htp]
        rfl
    | cons p high =>
        rw [htp]
        simpa using h.pp2 (by simp)

/-- The loop deals out the whole list. -/
theorem loop : ∀ {rest low high : List Ppn} {s : Sorting} {fuel : Nat},
    Dealt m cells s low high rest → rest.length ≤ fuel →
    Dealt m cells (Sorting.loop fuel s rest.head?) ((rest.filter (!isHigh ·)).reverse ++ low)
      ((rest.filter isHigh).reverse ++ high) [] := by
  intro rest
  induction rest with
  | nil =>
      intro low high s fuel h _
      cases fuel <;> exact h
  | cons pp rest ih =>
      intro low high s fuel h hfuel
      obtain ⟨fuel, rfl⟩ : ∃ n, fuel = n + 1 := ⟨fuel - 1, by simp at hfuel; omega⟩
      have hfuel' : rest.length ≤ fuel := by simpa using hfuel
      show Dealt m cells ((s.turn pp).loop fuel ((s.turn pp).phys.pages pp).ppLink) _ _ []
      cases hpp : isHigh pp with
      | false =>
          obtain ⟨h', hnext⟩ := h.turn_low hpp
          rw [hnext]
          simpa [hpp] using ih h' hfuel'
      | true =>
          obtain ⟨h', hnext⟩ := h.turn_high hpp
          rw [hnext]
          simpa [hpp] using ih h' hfuel'

/-- `*tp[1] = 0` ends the second list. -/
theorem close (h : Dealt m cells s low high []) :
    Dealt m cells (s.write1 none) low high [] ∧
      Chain (s.write1 none).phys.link (s.write1 none).pp2 high.reverse := by
  obtain ⟨hlink, hre⟩ := h.write1_link none
  have htp := h.tp1
  cases high with
  | nil =>
      have hs : s.write1 none = { s with pp2 := none } := by
        unfold Sorting.write1
        rw [htp]
        rfl
      rw [hs]
      exact ⟨⟨h.nodup, h.sub, h.lowTrail, h.highTrail, h.tp0, h.tp1, h.pp1, fun hne => absurd rfl hne,
        h.chain, h.relinked⟩, .nil⟩
  | cons p high =>
      have hs : s.write1 none = { s with phys := s.phys.setLink p none } := by
        unfold Sorting.write1
        rw [htp]
        rfl
      have hnodup := h.nodup
      simp only [List.append_nil, List.nodup_append, List.nodup_cons] at hnodup
      obtain ⟨-, ⟨hp, -⟩, hdisj⟩ := hnodup
      have hne : ∀ q, q ≠ p → (s.write1 none).phys.link q = s.phys.link q := fun q hq => by
        rw [hlink]
        exact Function.update_of_ne hq _ _
      have hself : (s.write1 none).phys.link p = none := by
        rw [hlink]
        exact Function.update_self ..
      have htrail : Trail (s.write1 none).phys.link (p :: high) :=
        h.highTrail.congr fun q hq => hne q fun heq => hp (heq ▸ hq)
      have hlow : Trail (s.write1 none).phys.link low := h.lowTrail.congr fun q hq => hne q
        (hdisj q (List.mem_of_mem_tail hq) p List.mem_cons_self)
      have hchain := htrail.chain .nil fun b hb => by
        cases hb
        exact hself
      rw [hs] at hre htrail hlow hchain ⊢
      refine ⟨⟨h.nodup, h.sub, hlow, htrail, h.tp0, h.tp1, h.pp1, h.pp2, .nil, hre⟩, ?_⟩
      rw [show s.pp2 = (p :: high).getLast? from h.pp2 (by simp)]
      simpa using hchain

/-- `*tp[0] = pp2` joins the lists. -/
theorem join (h : Dealt m cells s low high []) (hhigh : Chain s.phys.link s.pp2 high.reverse) :
    Chain (s.write0 s.pp2).phys.link (s.write0 s.pp2).pp1 (low.reverse ++ high.reverse) ∧
      Relinked m (s.write0 s.pp2).phys cells := by
  obtain ⟨hlink, hre⟩ := h.write0_link s.pp2
  refine ⟨?_, hre⟩
  have htp := h.tp0
  cases low with
  | nil =>
      unfold Sorting.write0
      rw [htp]
      exact hhigh
  | cons p low =>
      have hs : s.write0 s.pp2 = { s with phys := s.phys.setLink p s.pp2 } := by
        unfold Sorting.write0
        rw [htp]
        rfl
      have hnodup := h.nodup
      simp only [List.append_nil, List.nodup_append, List.nodup_cons] at hnodup
      obtain ⟨⟨hp, -⟩, -, hdisj⟩ := hnodup
      have hne : ∀ q, q ≠ p → (s.write0 s.pp2).phys.link q = s.phys.link q := fun q hq => by
        rw [hlink]
        exact Function.update_of_ne hq _ _
      have hself : (s.write0 s.pp2).phys.link p = s.pp2 := by
        rw [hlink]
        exact Function.update_self ..
      have htrail : Trail (s.write0 s.pp2).phys.link (p :: low) :=
        h.lowTrail.congr fun q hq => hne q fun heq => hp (heq ▸ hq)
      have hhigh' : Chain (s.write0 s.pp2).phys.link s.pp2 high.reverse :=
        hhigh.congr fun q hq => hne q fun heq =>
          hdisj p List.mem_cons_self q (List.mem_reverse.mp hq) heq.symm
      have hchain := htrail.chain hhigh' fun b hb => by
        cases hb
        exact hself
      rw [hs] at hchain ⊢
      rw [show s.pp1 = (p :: low).getLast? from h.pp1 (by simp)]
      simpa using hchain

end Sorting.Dealt

/-- The first part of `check_page_free_list(1)`: the list with the pages below 4 MB in front. -/
theorem lowFirst_chain {m : Phys} {l : List Ppn} (hc : Chain m.link m.pageFreeList l)
    (hfuel : l.length ≤ m.npages) :
    Chain (lowFirst m).link (lowFirst m).pageFreeList (l.filter (!isHigh ·) ++ l.filter isHigh) ∧
      Relinked m { lowFirst m with pageFreeList := m.pageFreeList } l := by
  have hhead := hc.head_eq
  rw [hhead] at hc
  have hstart : Sorting.Dealt m l ⟨m, none, none, none, none⟩ [] [] l :=
    ⟨hc.nodup, fun _ => id, .nil, .nil, rfl, rfl, fun h => absurd rfl h, fun h => absurd rfl h, hc,
      .refl m l⟩
  obtain ⟨hclosed, hhigh⟩ := (hstart.loop hfuel).close
  obtain ⟨hchain, hre⟩ := hclosed.join hhigh
  rw [← hhead] at hchain hre
  simp only [List.append_nil, List.reverse_reverse] at hchain
  refine ⟨hchain, ?_⟩
  have hphys : { lowFirst m with pageFreeList := m.pageFreeList } =
      (((Sorting.loop m.npages ⟨m, none, none, none, none⟩ m.pageFreeList).write1 none).write0
        ((Sorting.loop m.npages ⟨m, none, none, none, none⟩ m.pageFreeList).write1 none).pp2).phys := by
    obtain ⟨pages, hpages⟩ := hre.same
    unfold lowFirst
    simp only [hpages]
  rw [hphys]
  exact hre

end SisOp.Jos
