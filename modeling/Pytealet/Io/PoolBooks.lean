import Pytealet.Io.PoolCache
import Pytealet.Lib.Names
import Pytealet.Lib.Placement
import Pytealet.Lib.Tally

/-!
# PoolBooks — where the pools of a `RecvBufferPoolCache` are

A pool that the cache has created is on the deque, away with a checkout, held by a caller, closed,
or was freed by others.  The two sets of addresses and the count of the pools that are away say the
same.
-/

namespace Pytealet.Io.PoolCache

open Lib Lib.Transition Function List

/-! ## The books -/

/-- Where a pool can be. -/
inductive Spot
  | free
  | away
  | held
  | closed
  | gone
deriving DecidableEq, Repr

/-- The pools at each spot; `l` are those that are away. -/
def State.place (s : State) (l : List Nat) : Spot → List Nat
  | .free => s.free
  | .away => l
  | .held => s.held
  | .closed => s.closes
  | .gone => s.gone

/-- The pools that the cache has created, and no others, are each at one spot. -/
def Kept (made : Nat) (pool : Nat → Pool) (place : Spot → List Nat) : Prop :=
  ∃ link : Nat → Option Spot, Placed link place ∧ ∀ i, link i ≠ none ↔ i < made ∧ (pool i).own = true

structure Books (s : State) (l : List Nat) : Prop where
  kept : Kept s.made s.pool (s.place l)
  live : ∀ i, (i ∈ s.free ∨ i ∈ l) ∨ i ∈ s.held → i ∉ s.dropped
  distinct : ∀ i j, i < s.made → j < s.made → i ∉ s.dropped → j ∉ s.dropped → s.addr i = s.addr j → i = j
  parked : Names s.addr s.parked fun i => i ∈ s.free ∨ i ∈ l
  checkedOut : Names s.addr s.checkedOut (· ∈ s.held)
  counted : s.away = l.length
  dropped : ∀ i ∈ s.dropped, i < s.made

section Rules

variable {cfg : Config} {s s' : State} {l l' : List Nat} {i j k n made : Nat}
    {a b : Spot} {pool : Nat → Pool}
  {place place' : Spot → List Nat} {c c' : Call}

namespace Kept

theorem unique (h : Kept made pool place) (ha : i ∈ place a) (hb : i ∈ place b) : a = b := by
  rcases h with ⟨link, hplaced, _⟩
  exact hplaced.unique ha hb

theorem nodup (h : Kept made pool place) (a : Spot) : (place a).Nodup := by
  rcases h with ⟨link, hplaced, _⟩
  exact hplaced.nodup a

theorem own (h : Kept made pool place) (ha : i ∈ place a) : i < made ∧ (pool i).own = true := by
  rcases h with ⟨link, hplaced, hlink⟩
  apply (hlink i).1
  rw [(hplaced.mem_iff i a).2 ha]
  exact Option.some_ne_none a

theorem one (h : Kept made pool place) (hi : i < made) (hown : (pool i).own = true) :
    ∃! a, i ∈ place a := by
  rcases h with ⟨link, hplaced, hlink⟩
  rcases Option.ne_none_iff_exists'.1 ((hlink i).2 ⟨hi, hown⟩) with ⟨a, ha⟩
  have hmem : i ∈ place a := (hplaced.mem_iff i a).1 ha
  exact ⟨a, hmem, fun b hb => hplaced.unique hb hmem⟩

theorem perm (h : Kept made pool place) (hp : ∀ a, (place' a).Perm (place a)) : Kept made pool place' := by
  rcases h with ⟨link, hplaced, hlink⟩
  exact ⟨link, hplaced.perm hp, hlink⟩

theorem transfer (h : Kept made pool place) (hi : i ∈ place a) (hne : a ≠ b)
    (ha : (place' a).Perm ((place a).erase i))
    (hb : (place' b).Perm (i :: place b)) (ho : ∀ d, d ≠ a → d ≠ b → place' d = place d) :
      Kept made pool place' := by
  rcases h with ⟨link, hplaced, hlink⟩
  have hia : link i = some a := (hplaced.mem_iff i a).2 hi
  refine ⟨_, hplaced.transfer hia hne ha hb ho, ?_⟩
  intro j
  by_cases hj : j = i
  · subst hj
    rw [update_self, ← hlink j, hia]
    simp
  · rw [update_of_ne hj]
    exact hlink j

theorem enter (h : Kept made pool place) (p : Pool) (hp : p.own = true)
    (hb : (place' b).Perm (made :: place b))
    (ho : ∀ d, d ≠ b → place' d = place d) : Kept (made + 1) (update pool made p) place' := by
  rcases h with ⟨link, hplaced, hlink⟩
  have hnone : link made = none := by
    by_contra hne
    exact lt_irrefl made ((hlink made).1 hne).1
  refine ⟨_, hplaced.enter hnone hb ho, ?_⟩
  intro j
  by_cases hj : j = made
  · subst hj
    simp [hp]
  · rw [update_of_ne hj, update_of_ne hj, hlink j]
    have hlt : j < made + 1 ↔ j < made := by omega
    rw [hlt]

theorem foreign (h : Kept made pool place) (p : Pool) (hp : p.own = false) :
    Kept (made + 1) (update pool made p) place := by
  rcases h with ⟨link, hplaced, hlink⟩
  refine ⟨link, hplaced, ?_⟩
  intro j
  by_cases hj : j = made
  · subst hj
    rw [hlink j]
    simp [hp]
  · rw [update_of_ne hj, hlink j]
    have hlt : j < made + 1 ↔ j < made := by omega
    rw [hlt]

theorem pour (h : Kept made pool place) (hne : a ≠ b) (ha : place' a = [])
    (hb : (place' b).Perm (place a ++ place b))
    (ho : ∀ d, d ≠ a → d ≠ b → place' d = place d) : Kept made pool place' := by
  rcases h with ⟨link, hplaced, hlink⟩
  refine ⟨_, hplaced.pour hne ha hb ho, ?_⟩
  intro j
  rw [← hlink j]
  split
  · rename_i hj
    simp [hj]
  · rfl

end Kept

namespace Books

theorem perm (h : Books s l) (hp : l.Perm l') : Books s l' := by
  refine ⟨h.kept.perm ?_, ?_, h.distinct, ?_, h.checkedOut, h.counted.trans hp.length_eq, h.dropped⟩
  · intro a
    cases a with
    | away => exact hp.symm
    | _ => exact .refl _
  · intro i hi
    rw [← hp.mem_iff] at hi
    exact h.live i hi
  · exact h.parked.congr (fun _ _ => rfl) fun i => by rw [hp.mem_iff]

theorem setCall (h : Books s l) (k : Nat) (c : Call) : Books (s.setCall k c) l :=
  ⟨h.kept, h.live, h.distinct, h.parked, h.checkedOut, h.counted, h.dropped⟩

theorem lt (h : Books s l) (hi : (i ∈ s.free ∨ i ∈ l) ∨ i ∈ s.held) : i < s.made := by
  rcases hi with (hi | hi) | hi
  · exact (h.kept.own (a := .free) hi).1
  · exact (h.kept.own (a := .away) hi).1
  · exact (h.kept.own (a := .held) hi).1

theorem addr_inj (h : Books s l) (hi : (i ∈ s.free ∨ i ∈ l) ∨ i ∈ s.held)
    (hj : (j ∈ s.free ∨ j ∈ l) ∨ j ∈ s.held)
    (heq : s.addr j = s.addr i) : j = i :=
  h.distinct j i (h.lt hj) (h.lt hi) (h.live j hj) (h.live i hi) heq

theorem not_parked (h : Books s l) (hi : i ∈ s.held) : s.addr i ∉ s.parked := by
  intro hmem
  rcases (h.parked _).1 hmem with ⟨j, hj, haddr⟩
  have heq : j = i := h.addr_inj (.inr hi) (.inl hj) haddr
  subst heq
  rcases hj with hj | hj
  · exact nomatch h.kept.unique (a := .held) (b := .free) hi hj
  · exact nomatch h.kept.unique (a := .held) (b := .away) hi hj

theorem takeFront {rest : List Nat} (h : Books s l) (hfree : s.free = i :: rest) :
    Books { s with free := rest, away := s.away + 1 } (i :: l) := by
  have hsame : ∀ j, (j ∈ rest ∨ j ∈ i :: l) ↔ (j ∈ s.free ∨ j ∈ l) := by
    intro j
    rw [hfree]
    simp only [mem_cons]
    tauto
  refine ⟨?_, ?_, h.distinct, ?_, h.checkedOut, congrArg (· + 1) h.counted, h.dropped⟩
  · apply h.kept.transfer (a := .free) (b := .away) (hfree ▸ mem_cons_self) (by decide)
    · change rest.Perm (s.free.erase i)
      rw [hfree, erase_cons_head]
    · exact .refl _
    · intro d ha hb
      cases d with
      | free => exact absurd rfl ha
      | away => exact absurd rfl hb
      | _ => rfl
  · exact fun j hj => h.live j (hj.imp_left (hsame j).1)
  · exact h.parked.congr (fun _ _ => rfl) hsame

theorem parked_leave (h : Books s (i :: l)) :
    Names s.addr (s.parked.erase (s.addr i)) fun j => j ∈ s.free ∨ j ∈ l := by
  have hnodup : (i :: l).Nodup := h.kept.nodup .away
  apply h.parked.erase
  · exact fun j hj heq => h.addr_inj (.inl (.inr mem_cons_self)) (.inl hj) heq
  · intro j
    rw [mem_cons]
    constructor
    · rintro (hj | hj)
      · refine ⟨.inl hj, ?_⟩
        intro heq
        subst heq
        exact nomatch h.kept.unique (a := .free) (b := .away) hj mem_cons_self
      · exact ⟨.inr (.inr hj), fun heq => hnodup.notMem (heq ▸ hj)⟩
    · rintro ⟨hj | hj | hj, hne⟩
      · exact .inl hj
      · exact absurd hj hne
      · exact .inr hj

theorem counted_leave (h : Books s (i :: l)) : s.away - 1 = l.length := by
  rw [h.counted, length_cons]
  rfl

theorem letGo (h : Books s (i :: l)) :
    Books { s with away := s.away - 1, parked := s.parked.erase (s.addr i), gone := i :: s.gone } l := by
  refine ⟨?_, ?_, h.distinct, h.parked_leave, h.checkedOut, h.counted_leave, h.dropped⟩
  · apply h.kept.transfer (a := .away) (b := .gone) mem_cons_self (by decide)
    · change l.Perm ((i :: l).erase i)
      rw [erase_cons_head]
    · exact .refl _
    · intro d ha hb
      cases d with
      | away => exact absurd rfl ha
      | gone => exact absurd rfl hb
      | _ => rfl
  · exact fun j hj => h.live j (hj.imp_left (Or.imp_right (mem_cons_of_mem i)))

theorem handOut (h : Books s (i :: l)) :
    Books { s with away := s.away - 1, parked := s.parked.erase (s.addr i), checkedOut := insert (s.addr i) s.checkedOut,
                   held := i :: s.held } l := by
  refine ⟨?_, ?_, h.distinct, h.parked_leave, ?_, h.counted_leave, h.dropped⟩
  · apply h.kept.transfer (a := .away) (b := .held) mem_cons_self (by decide)
    · change l.Perm ((i :: l).erase i)
      rw [erase_cons_head]
    · exact .refl _
    · intro d ha hb
      cases d with
      | away => exact absurd rfl ha
      | held => exact absurd rfl hb
      | _ => rfl
  · rintro j ((hj | hj) | hj)
    · exact h.live j (.inl (.inl hj))
    · exact h.live j (.inl (.inr (mem_cons_of_mem i hj)))
    · rcases mem_cons.1 hj with heq | hj
      · exact h.live j (.inl (.inr (heq ▸ mem_cons_self)))
      · exact h.live j (.inr hj)
  · exact h.checkedOut.insert i fun j => mem_cons.trans or_comm

theorem putBack (h : Books s (i :: l)) : Books (s.putBack i) l := by
  have hsame : ∀ j, (j ∈ s.free ++ [i] ∨ j ∈ l) ↔ (j ∈ s.free ∨ j ∈ i :: l) ∨ j = i := by
    intro j
    simp only [mem_append, mem_cons, not_mem_nil, or_false]
    tauto
  have haway : ∀ {j}, (j ∈ s.free ∨ j ∈ i :: l) ∨ j = i → j ∈ s.free ∨ j ∈ i :: l := by
    rintro j (hj | heq)
    · exact hj
    · exact .inr (heq ▸ mem_cons_self)
  refine ⟨?_, ?_, h.distinct, h.parked.insert i hsame, h.checkedOut, h.counted_leave, h.dropped⟩
  · apply h.kept.transfer (a := .away) (b := .free) mem_cons_self (by decide)
    · change l.Perm ((i :: l).erase i)
      rw [erase_cons_head]
    · exact perm_append_singleton i s.free
    · intro d ha hb
      cases d with
      | away => exact absurd rfl ha
      | free => exact absurd rfl hb
      | _ => rfl
  · exact fun j hj => h.live j (hj.imp_left fun hj => haway ((hsame j).1 hj))

theorem drain (h : Books s l) : Books s.drainLocked l := by
  refine ⟨?_, ?_, h.distinct, ?_, h.checkedOut, h.counted, h.dropped⟩
  · apply h.kept.pour (a := .free) (b := .closed) (by decide) rfl (.refl _)
    intro d ha hb
    cases d with
    | free => exact absurd rfl ha
    | closed => exact absurd rfl hb
    | _ => rfl
  · rintro j ((hj | hj) | hj)
    · exact absurd hj not_mem_nil
    · exact h.live j (.inl (.inr hj))
    · exact h.live j (.inr hj)
  · apply h.parked.remove
    · intro j hj
      rw [mem_toFinset, mem_map]
      constructor
      · rintro ⟨j', hj', haddr⟩ hmem
        have heq : j = j' := h.addr_inj (.inl (.inl hj')) (.inl hj) haddr.symm
        subst heq
        rcases hmem with hmem | hmem
        · exact absurd hmem not_mem_nil
        · exact nomatch h.kept.unique (a := .free) (b := .away) hj' hmem
      · intro hnot
        rcases hj with hj | hj
        · exact ⟨j, hj, rfl⟩
        · exact absurd (Or.inr hj) hnot
    · rintro j (hj | hj)
      · exact absurd hj not_mem_nil
      · exact .inr hj

theorem checkedOut_leave (h : Books s l) (hi : i ∈ s.held) :
    Names s.addr (s.checkedOut.erase (s.addr i)) (· ∈ s.held.erase i) := by
  apply h.checkedOut.erase
  · exact fun j hj heq => h.addr_inj (.inr hi) (.inr hj) heq
  · intro j
    have hnodup : s.held.Nodup := h.kept.nodup .held
    rw [hnodup.mem_erase_iff]
    exact and_comm

theorem discard (h : Books s l) (hi : i ∈ s.held) :
    Books { s with checkedOut := s.checkedOut.erase (s.addr i), held := s.held.erase i, gone := i :: s.gone } l := by
  refine ⟨?_, ?_, h.distinct, h.parked, h.checkedOut_leave hi, h.counted, h.dropped⟩
  · apply h.kept.transfer (a := .held) (b := .gone) hi (by decide) (.refl _) (.refl _)
    intro d ha hb
    cases d with
    | held => exact absurd rfl ha
    | gone => exact absurd rfl hb
    | _ => rfl
  · exact fun j hj => h.live j (hj.imp_right mem_of_mem_erase)

theorem dispose (h : Books s l) (hi : i ∈ s.held) :
    Books { s with checkedOut := s.checkedOut.erase (s.addr i), held := s.held.erase i, closes := i :: s.closes } l := by
  refine ⟨?_, ?_, h.distinct, h.parked, h.checkedOut_leave hi, h.counted, h.dropped⟩
  · apply h.kept.transfer (a := .held) (b := .closed) hi (by decide) (.refl _) (.refl _)
    intro d ha hb
    cases d with
    | held => exact absurd rfl ha
    | closed => exact absurd rfl hb
    | _ => rfl
  · exact fun j hj => h.live j (hj.imp_right mem_of_mem_erase)

theorem giveBack (h : Books s l) (hi : i ∈ s.held) :
    Books { s with checkedOut := s.checkedOut.erase (s.addr i), held := s.held.erase i,
                   parked := insert (s.addr i) s.parked, free := s.free ++ [i] } l := by
  have hsame : ∀ j, (j ∈ s.free ++ [i] ∨ j ∈ l) ↔ (j ∈ s.free ∨ j ∈ l) ∨ j = i := by
    intro j
    simp only [mem_append, mem_cons, not_mem_nil, or_false]
    tauto
  refine ⟨?_, ?_, h.distinct, h.parked.insert i hsame, h.checkedOut_leave hi, h.counted, h.dropped⟩
  · apply h.kept.transfer (a := .held) (b := .free) hi (by decide) (.refl _)
    · exact perm_append_singleton i s.free
    · intro d ha hb
      cases d with
      | held => exact absurd rfl ha
      | free => exact absurd rfl hb
      | _ => rfl
  · rintro j (hj | hj)
    · rcases (hsame j).1 hj with hj | heq
      · exact h.live j (.inl hj)
      · exact h.live j (.inr (heq ▸ hi))
    · exact h.live j (.inr (mem_of_mem_erase hj))

theorem make (h : Books s l) {p : Pool} (hunused : s.Unused p.addr) (t : State)
    (hpool : t.pool = update s.pool s.made p) (hmade : t.made = s.made + 1)
    (hdropped : t.dropped = s.dropped) :
    (∀ j < s.made, t.addr j = s.addr j) ∧ t.addr s.made = p.addr ∧ s.made ∉ s.dropped ∧
      (∀ i j, i < t.made → j < t.made → i ∉ t.dropped → j ∉ t.dropped → t.addr i = t.addr j → i = j) ∧
      ∀ i ∈ t.dropped, i < t.made := by
  have hold : ∀ j < s.made, t.addr j = s.addr j := by
    intro j hj
    unfold State.addr
    rw [hpool, update_of_ne (ne_of_lt hj)]
  have hnew : t.addr s.made = p.addr := by
    unfold State.addr
    rw [hpool, update_self]
  have hlive : s.made ∉ s.dropped := fun hmem => lt_irrefl _ (h.dropped _ hmem)
  refine ⟨hold, hnew, hlive, ?_, ?_⟩
  · rw [hmade, hdropped]
    intro i j hi hj hidrop hjdrop heq
    rcases Nat.lt_succ_iff_lt_or_eq.1 hi with hi | hi
    · rcases Nat.lt_succ_iff_lt_or_eq.1 hj with hj | hj
      · exact h.distinct i j hi hj hidrop hjdrop ((hold i hi).symm.trans (heq.trans (hold j hj)))
      · subst hj
        exact absurd ((hold i hi).symm.trans (heq.trans hnew)) (hunused i hi hidrop)
    · subst hi
      rcases Nat.lt_succ_iff_lt_or_eq.1 hj with hj | hj
      · exact absurd ((hold j hj).symm.trans (heq.symm.trans hnew)) (hunused j hj hjdrop)
      · exact hj.symm
  · rw [hmade, hdropped]
    exact fun i hi => Nat.lt_succ_of_lt (h.dropped i hi)

theorem refuse (h : Books s l) {p : Pool} (hp : p.own = true) (hunused : s.Unused p.addr) :
    Books { s.make p with closes := s.made :: s.closes } l := by
  rcases h.make hunused { s.make p with closes := s.made :: s.closes } rfl rfl rfl with
    ⟨hold, _, _, hdistinct, hdropped⟩
  refine ⟨?_, h.live, hdistinct, ?_, ?_, h.counted, hdropped⟩
  · apply h.kept.enter (b := .closed) p hp (.refl _)
    intro d hd
    cases d with
    | closed => exact absurd rfl hd
    | _ => rfl
  · exact h.parked.congr (fun j hj => hold j (h.lt (.inl hj))) fun _ => Iff.rfl
  · exact h.checkedOut.congr (fun j hj => hold j (h.lt (.inr hj))) fun _ => Iff.rfl

theorem enlist (h : Books s l) {p : Pool} (hp : p.own = true) (hunused : s.Unused p.addr) :
    Books { s.make p with checkedOut := insert p.addr s.checkedOut, held := s.made :: s.held } l := by
  rcases h.make hunused { s.make p with checkedOut := insert p.addr s.checkedOut, held := s.made :: s.held } rfl rfl rfl
    with ⟨hold, hnew, hlive, hdistinct, hdropped⟩
  refine ⟨?_, ?_, hdistinct, ?_, ?_, h.counted, hdropped⟩
  · apply h.kept.enter (b := .held) p hp (.refl _)
    intro d hd
    cases d with
    | held => exact absurd rfl hd
    | _ => rfl
  · rintro j (hj | hj)
    · exact h.live j (.inl hj)
    · rcases mem_cons.1 hj with heq | hj
      · exact heq ▸ hlive
      · exact h.live j (.inr hj)
  · exact h.parked.congr (fun j hj => hold j (h.lt (.inl hj))) fun _ => Iff.rfl
  · have hcongr := h.checkedOut.congr (fun j hj => hold j (h.lt (.inr hj))) fun _ => Iff.rfl
    have hinsert :=
      hcongr.insert s.made fun j => (mem_cons (a := j) (b := s.made) (l := s.held)).trans or_comm
    rw [hnew] at hinsert
    exact hinsert

theorem foreign (h : Books s l) {p : Pool} (hp : p.own = false) (hunused : s.Unused p.addr) :
    Books (s.make p) l := by
  rcases h.make hunused (s.make p) rfl rfl rfl with ⟨hold, _, _, hdistinct, hdropped⟩
  refine ⟨h.kept.foreign p hp, h.live, hdistinct, ?_, ?_, h.counted, hdropped⟩
  · exact h.parked.congr (fun j hj => hold j (h.lt (.inl hj))) fun _ => Iff.rfl
  · exact h.checkedOut.congr (fun j hj => hold j (h.lt (.inr hj))) fun _ => Iff.rfl

theorem drop (h : Books s l) (hi : i < s.made) (hfree : i ∉ s.free) (hl : i ∉ l) (hheld : i ∉ s.held) :
    Books { s with dropped := insert i s.dropped } l := by
  have hkeep : ∀ {j}, j ∉ insert i s.dropped → j ∉ s.dropped :=
    fun hj hmem => hj (Finset.mem_insert_of_mem hmem)
  refine ⟨h.kept, ?_, ?_, h.parked, h.checkedOut, h.counted, ?_⟩
  · intro j hj hmem
    rcases Finset.mem_insert.1 hmem with heq | hmem
    · subst heq
      rcases hj with (hj | hj) | hj
      · exact hfree hj
      · exact hl hj
      · exact hheld hj
    · exact h.live j hj hmem
  · exact fun a b ha hb hadrop hbdrop heq => h.distinct a b ha hb (hkeep hadrop) (hkeep hbdrop) heq
  · intro j hj
    rcases Finset.mem_insert.1 hj with heq | hj
    · exact heq ▸ hi
    · exact h.dropped j hj

end Books

/-! ## The books over a run -/

/-- Only what has been handed out is released, once each; and nothing that is held is dropped. -/
def Proper (s : State) : Act → Prop
  | .release i => i ∈ s.held
  | .drop i => i ∉ s.held
  | _ => True

instance (s : State) : ∀ x, Decidable (Proper s x)
  | .release i => inferInstanceAs (Decidable (i ∈ s.held))
  | .drop i => inferInstanceAs (Decidable (i ∉ s.held))
  | .acquire => isTrue trivial
  | .pop _ => isTrue trivial
  | .ask _ _ => isTrue trivial
  | .settle _ => isTrue trivial
  | .allocate _ => isTrue trivial
  | .create _ _ => isTrue trivial
  | .close => isTrue trivial
  | .foreign _ _ _ => isTrue trivial
  | .use _ => isTrue trivial
  | .unuse _ => isTrue trivial
  | .unregister _ => isTrue trivial

theorem asked_split (hk : s.calls[k]? = some c) :
    ∃ l, (asked s.calls).Perm (c.asked ++ l) ∧
      ∀ c' : Call, (asked (s.calls.set k c')).Perm (c'.asked ++ l) :=
  ⟨_, Tally.flatMap_perm hk, fun c' => Tally.flatMap_set_perm hk c'⟩

theorem Books.stays (h : Books s (asked s.calls)) (hk : s.calls[k]? = some c) (hc : c'.asked = c.asked) :
    Books (s.setCall k c') (asked (s.setCall k c').calls) := by
  have heq : asked (s.setCall k c').calls = asked s.calls := Tally.flatMap_set hk hc
  rw [heq]
  exact h.setCall k c'

theorem Books.leaves {t : State} (h : Books s (asked s.calls)) (hk : s.calls[k]? = some c)
    (hc : c.asked = [i])
    (hc' : c'.asked = []) (hcalls : t.calls = s.calls) (ht : ∀ l, Books s (i :: l) → Books t l) :
    Books (t.setCall k c') (asked (t.setCall k c').calls) := by
  rcases asked_split hk with ⟨l, hperm, hset⟩
  rw [hc] at hperm
  have hset' : (asked (t.calls.set k c')).Perm l := by
    rw [hcalls]
    exact (hset c').trans (hc' ▸ List.Perm.refl l)
  exact ((ht l (h.perm hperm)).setCall k c').perm hset'.symm

theorem release_books (h : Books s l) (hi : i ∈ s.held) : Books (s.release cfg i) l := by
  have hparked : s.addr i ∉ s.parked := h.not_parked hi
  unfold State.release
  by_cases hfreed : i ∈ s.unregistered
  · simp only [hfreed, hi, if_true]
    exact h.discard hi
  · simp only [hfreed, hparked, if_false]
    split
    · exact h.giveBack hi
    · exact h.dispose hi

theorem step_books {x : Act} (h : Books s (asked s.calls)) (hp : Proper s x) (hs : Step cfg s x s') :
    Books s' (asked s'.calls) := by
  cases hs with
  | acquire c hc =>
    have heq : asked (s.calls ++ [c]) = asked s.calls := by
      unfold asked
      rcases hc with hc | ⟨n, hc⟩ <;> simp [hc, Call.asked]
    rw [heq]
    exact ⟨h.kept, h.live, h.distinct, h.parked, h.checkedOut, h.counted, h.dropped⟩
  | popEmpty hk => exact h.stays hk rfl
  | @pop k n i rest hk hfree =>
    rcases asked_split hk with ⟨l, hperm, hset⟩
    apply (((h.perm hperm).takeFront hfree).setCall k _).perm
    exact (hset (.asking i n)).symm
  | ask answer hk _ _ => exact h.stays hk rfl
  | @letGo k i n hk => exact h.leaves hk rfl rfl rfl fun l hl => hl.letGo
  | @putBack k i n answer c hk hc _ =>
    apply h.leaves (t := s.putBack i) hk rfl _ rfl fun l hl => hl.putBack
    rcases hc with hc | ⟨n, hc⟩ <;> rw [hc] <;> rfl
  | @putBackClosed k i n answer hk _ =>
    exact h.leaves (t := (s.putBack i).drainLocked) hk rfl rfl rfl fun l hl => hl.putBack.drain
  | @handOut k i n hk _ => exact h.leaves hk rfl rfl rfl fun l hl => hl.handOut
  | allocate c hk hc =>
    apply h.stays hk
    rcases hc with hc | hc <;> rw [hc] <;> rfl
  | createFails hk => exact h.stays hk rfl
  | refuse hk hunused _ =>
    rcases asked_split hk with ⟨l, hperm, hset⟩
    exact (((h.perm hperm).refuse rfl hunused).setCall _ _).perm (hset .failed).symm
  | enlist hk hunused _ =>
    rcases asked_split hk with ⟨l, hperm, hset⟩
    exact (((h.perm hperm).enlist rfl hunused).setCall _ _).perm (hset (.returned s.made)).symm
  | @release i _ _ =>
    rw [release_calls]
    exact release_books h hp
  | close =>
    have hclosed : Books { s with closed := true } (asked s.calls) :=
      ⟨h.kept, h.live, h.distinct, h.parked, h.checkedOut, h.counted, h.dropped⟩
    exact hclosed.drain
  | foreign hunused => exact h.foreign rfl hunused
  | drop hi hfree hasked => exact h.drop hi hfree hasked hp
  | use _ => exact ⟨h.kept, h.live, h.distinct, h.parked, h.checkedOut, h.counted, h.dropped⟩
  | unuse => exact ⟨h.kept, h.live, h.distinct, h.parked, h.checkedOut, h.counted, h.dropped⟩
  | unregister _ => exact ⟨h.kept, h.live, h.distinct, h.parked, h.checkedOut, h.counted, h.dropped⟩

/-! ## Answers and limits -/

/-- What a call was told still holds. -/
structure Answered (s : State) : Prop where
  idle : ∀ k i n : Nat, s.calls[k]? = some (.told i n .idle) → i ∉ s.inUse
  freed : ∀ k i n : Nat, s.calls[k]? = some (.told i n .unregistered) → i ∈ s.unregistered
  gone : ∀ i ∈ s.gone, i ∈ s.unregistered
  used : ∀ i ∈ s.inUse, i < s.made

structure Limits (cfg : Config) (s : State) : Prop where
  cap : ∀ m, cfg.maxFree = some m → s.free.length + s.away ≤ m.toNat
  shut : s.closed = true → s.free = []

namespace Answered

theorem setCall (h : Answered s) (k : Nat) (hc : ∀ i n answer, c = .told i n answer →
    (answer = .idle → i ∉ s.inUse) ∧ (answer = .unregistered → i ∈ s.unregistered)) :
      Answered (s.setCall k c) := by
  refine ⟨?_, ?_, h.gone, h.used⟩
  · intro j i n hj
    rcases getElem?_setCall hj with heq | hj
    · exact (hc i n .idle heq).1 rfl
    · exact h.idle j i n hj
  · intro j i n hj
    rcases getElem?_setCall hj with heq | hj
    · exact (hc i n .unregistered heq).2 rfl
    · exact h.freed j i n hj

theorem stays (h : Answered s) (k : Nat) (hc : ∀ i n answer, c ≠ .told i n answer) :
    Answered (s.setCall k c) :=
  h.setCall k fun i n answer heq => absurd heq (hc i n answer)

end Answered

theorem step_answered {x : Act} (h : Answered s) (hb : Books s (asked s.calls))
    (hs : Step cfg s x s') : Answered s' := by
  cases hs with
  | acquire c hc =>
    have hlast : ∀ {j : Nat} {i n : Nat} {answer : Answer}, (s.calls ++ [c])[j]? = some (.told i n answer) →
        s.calls[j]? = some (.told i n answer) := by
      intro j i n answer hj
      rw [List.getElem?_append] at hj
      split at hj
      · exact hj
      · have hmem : Call.told i n answer ∈ [c] := mem_of_getElem? hj
        have heq : Call.told i n answer = c := mem_singleton.1 hmem
        rcases hc with hc | ⟨n', hc⟩ <;> exact nomatch heq.trans hc
    exact ⟨fun k i n hk => h.idle k i n (hlast hk), fun k i n hk => h.freed k i n (hlast hk),
      h.gone, h.used⟩
  | @popEmpty k n hk => exact h.stays k fun _ _ _ heq => nomatch heq
  | @pop k n i rest hk hfree =>
    have hpop : Answered { s with free := rest, away := s.away + 1 } := ⟨h.idle, h.freed, h.gone, h.used⟩
    exact hpop.stays k fun _ _ _ heq => nomatch heq
  | @ask k i n raises answer hk hidle hfreed =>
    apply h.setCall k
    intro i' n' answer' heq
    cases heq
    exact ⟨hidle, hfreed⟩
  | @letGo k i n hk =>
    have hgone : Answered { s with away := s.away - 1, parked := s.parked.erase (s.addr i), gone := i :: s.gone } := by
      refine ⟨h.idle, h.freed, ?_, h.used⟩
      intro j hj
      rcases mem_cons.1 hj with heq | hj
      · exact heq ▸ h.freed k i n hk
      · exact h.gone j hj
    exact hgone.stays k fun _ _ _ heq => nomatch heq
  | @putBack k i n answer c hk hc _ =>
    have hback : Answered (s.putBack i) := ⟨h.idle, h.freed, h.gone, h.used⟩
    apply hback.stays k
    rintro i' n' answer' heq
    rcases hc with hc | ⟨n'', hc⟩ <;> exact nomatch heq.symm.trans hc
  | @putBackClosed k i n answer hk _ =>
    have hback : Answered (s.putBack i).drainLocked := ⟨h.idle, h.freed, h.gone, h.used⟩
    exact hback.stays k fun _ _ _ heq => nomatch heq
  | @handOut k i n hk _ =>
    have hout : Answered { s with away := s.away - 1, parked := s.parked.erase (s.addr i),
                                  checkedOut := insert (s.addr i) s.checkedOut, held := i :: s.held } :=
      ⟨h.idle, h.freed, h.gone, h.used⟩
    exact hout.stays k fun _ _ _ heq => nomatch heq
  | @allocate k c hk hc =>
    apply h.stays k
    intro i' n' answer' heq
    rcases hc with hc | hc <;> exact nomatch heq.symm.trans hc
  | @createFails k hk => exact h.stays k fun _ _ _ heq => nomatch heq
  | @refuse k a hk hunused _ =>
    have hmade :
        Answered { s.make ⟨a, cfg.bufferSize, cfg.bufferCount, true⟩ with closes := s.made ::
          s.closes } :=
      ⟨h.idle, h.freed, h.gone, fun i hi => Nat.lt_succ_of_lt (h.used i hi)⟩
    exact hmade.stays k fun _ _ _ heq => nomatch heq
  | @enlist k a hk hunused _ =>
    have hmade : Answered { s.make ⟨a, cfg.bufferSize, cfg.bufferCount, true⟩ with
        checkedOut := insert a s.checkedOut, held := s.made :: s.held } :=
      ⟨h.idle, h.freed, h.gone, fun i hi => Nat.lt_succ_of_lt (h.used i hi)⟩
    exact hmade.stays k fun _ _ _ heq => nomatch heq
  | @release i _ _ =>
    unfold State.release
    dsimp only
    by_cases hfreed : i ∈ s.unregistered
    · rw [if_pos hfreed]
      refine ⟨h.idle, h.freed, ?_, h.used⟩
      intro j hj
      change j ∈ (if i ∈ s.held then i :: s.gone else s.gone) at hj
      split at hj
      · rcases mem_cons.1 hj with heq | hj
        · exact heq ▸ hfreed
        · exact h.gone j hj
      · exact h.gone j hj
    · rw [if_neg hfreed]
      split
      · exact h
      · split
        · exact ⟨h.idle, h.freed, h.gone, h.used⟩
        · exact ⟨h.idle, h.freed, h.gone, h.used⟩
  | close => exact ⟨h.idle, h.freed, h.gone, h.used⟩
  | foreign _ => exact ⟨h.idle, h.freed, h.gone, fun i hi => Nat.lt_succ_of_lt (h.used i hi)⟩
  | drop _ _ _ => exact ⟨h.idle, h.freed, h.gone, h.used⟩
  | @use i hi =>
    refine ⟨?_, h.freed, h.gone, ?_⟩
    · intro k j n hk hmem
      rcases Finset.mem_insert.1 hmem with heq | hmem
      · -- who is away is not held
        subst heq
        exact nomatch hb.kept.unique (a := .away) (b := .held) (told_asked hk) hi
      · exact h.idle k j n hk hmem
    · intro j hj
      rcases Finset.mem_insert.1 hj with heq | hj
      · rw [heq]
        exact hb.lt (.inr hi)
      · exact h.used j hj
  | unuse =>
    exact ⟨fun k i n hk hmem => h.idle k i n hk (Finset.mem_of_mem_erase hmem), h.freed, h.gone,
      fun i hi => h.used i (Finset.mem_of_mem_erase hi)⟩
  | unregister _ =>
    exact ⟨h.idle, fun k i n hk => Finset.mem_insert_of_mem (h.freed k i n hk),
      fun i hi => Finset.mem_insert_of_mem (h.gone i hi), h.used⟩

theorem step_limits {x : Act} (h : Limits cfg s) (hb : Books s (asked s.calls))
    (hs : Step cfg s x s') : Limits cfg s' := by
  have haway : ∀ {k i n : Nat} {answer : Answer}, s.calls[k]? = some (.told i n answer) → 0 < s.away := by
    intro k i n answer hk
    rw [hb.counted]
    exact length_pos_of_mem (told_asked hk)
  cases hs with
  | @pop k n i rest hk hfree =>
    refine ⟨?_, ?_⟩
    · intro m hm
      have hcap := h.cap m hm
      rw [hfree, length_cons] at hcap
      change rest.length + (s.away + 1) ≤ m.toNat
      omega
    · intro hclosed
      exact nomatch hfree.symm.trans (h.shut hclosed)
  | @letGo k i n hk =>
    exact ⟨fun m hm => le_trans (Nat.add_le_add_left (Nat.sub_le _ _) _) (h.cap m hm), h.shut⟩
  | @handOut k i n hk _ =>
    exact ⟨fun m hm => le_trans (Nat.add_le_add_left (Nat.sub_le _ _) _) (h.cap m hm), h.shut⟩
  | @putBack k i n answer c hk _ hopen =>
    refine ⟨?_, fun hclosed => nomatch hopen.symm.trans hclosed⟩
    intro m hm
    have hcap := h.cap m hm
    have hpos := haway hk
    change (s.free ++ [i]).length + (s.away - 1) ≤ m.toNat
    rw [length_append, length_singleton]
    omega
  | @putBackClosed k i n answer hk _ =>
    refine ⟨?_, fun _ => rfl⟩
    intro m hm
    have hcap := h.cap m hm
    change 0 + (s.away - 1) ≤ m.toNat
    omega
  | @release i _ _ =>
    unfold State.release
    dsimp only
    by_cases hfreed : i ∈ s.unregistered
    · rw [if_pos hfreed]
      exact ⟨h.cap, h.shut⟩
    · rw [if_neg hfreed]
      split
      · exact h
      · split
        · rename_i hback
          refine ⟨?_, fun hclosed => nomatch hback.2.1.symm.trans hclosed⟩
          intro m hm
          have hroom : ¬ m ≤ (s.free.length + s.away : Nat) := by simpa [State.atCap, hm] using hback.2.2
          change (s.free ++ [i]).length + s.away ≤ m.toNat
          rw [length_append, length_singleton]
          omega
        · exact ⟨h.cap, h.shut⟩
  | close =>
    refine ⟨?_, fun _ => rfl⟩
    intro m hm
    have hcap := h.cap m hm
    change 0 + s.away ≤ m.toNat
    omega
  | _ => exact ⟨h.cap, h.shut⟩

/-! ## The property -/

/-- Every pool that the cache has created is at one spot, and there once. -/
structure Sound (cfg : Config) (s : State) : Prop where
  one : ∀ i < s.made, (s.pool i).own = true → ∃! a, i ∈ s.place (asked s.calls) a
  once : ∀ a, (s.place (asked s.calls) a).Nodup
  checkedOut : ∀ key, key ∈ s.checkedOut ↔ ∃ i ∈ s.held, s.addr i = key
  away : s.away = (asked s.calls).length
  cap : ∀ m, cfg.maxFree = some m → s.free.length + s.away ≤ m.toNat
  shut : s.closed = true → ∀ i < s.made, (s.pool i).own = true →
    i ∈ s.held ∨ i ∈ asked s.calls ∨ i ∈ s.closes ∨ (i ∈ s.gone ∧ i ∈ s.unregistered)

/-- A pool that the next step hands out is not held and not in use; and what is held stays so until
it is released. -/
def HandsOutFree (cfg : Config) (s : State) : Prop :=
  ∀ x s', step cfg s x = some s' →
    (∀ k i : Nat, s'.calls[k]? = some (.returned i) → s.calls[k]? ≠ some (.returned i) →
      i ∉ s.held ∧ i ∈ s'.held ∧ i ∉ s'.inUse) ∧
    ∀ i ∈ s.held, x ≠ .release i → i ∈ s'.held

/-- When the cache is closed, a checkout closes the pool that it has taken off the deque. -/
def ShutsAway (cfg : Config) (s : State) : Prop :=
  s.closed = true → ∀ (k i n : Nat) (answer : Answer), s.calls[k]? = some (.told i n answer) →
    ∃ s', step cfg s (.settle k) = some s' ∧ (i ∈ s'.closes ∨ (i ∈ s'.gone ∧ i ∈ s'.unregistered))

theorem sound (hb : Books s (asked s.calls)) (ha : Answered s) (hl : Limits cfg s) : Sound cfg s := by
  refine ⟨fun i hi hown => hb.kept.one hi hown, hb.kept.nodup, hb.checkedOut, hb.counted, hl.cap, ?_⟩
  intro hclosed i hi hown
  rcases hb.kept.one hi hown with ⟨a, hmem, _⟩
  cases a with
  | free =>
    have hnil : i ∈ ([] : List Nat) := hl.shut hclosed ▸ hmem
    exact absurd hnil not_mem_nil
  | away => exact .inr (.inl hmem)
  | held => exact .inl hmem
  | closed => exact .inr (.inr (.inl hmem))
  | gone => exact .inr (.inr (.inr ⟨hmem, ha.gone i hmem⟩))

theorem release_held (cfg : Config) (hi : i ∈ s.held) (hne : i ≠ j) : i ∈ (s.release cfg j).held := by
  have herase : i ∈ s.held.erase j := (mem_erase_of_ne hne).2 hi
  unfold State.release
  dsimp only
  split
  · exact herase
  · split
    · exact hi
    · split <;> exact herase

theorem handsOutFree (hb : Books s (asked s.calls)) (ha : Answered s) : HandsOutFree cfg s := by
  intro x s' h
  have hs := step_cases h
  refine ⟨?_, ?_⟩
  · intro k i hk hnot
    cases hs with
    | acquire c hc =>
      rw [List.getElem?_append] at hk
      split at hk
      · exact absurd hk hnot
      · have hmem : Call.returned i ∈ [c] := mem_of_getElem? hk
        have heq : Call.returned i = c := mem_singleton.1 hmem
        rcases hc with hc | ⟨n, hc⟩ <;> exact nomatch heq.trans hc
    | popEmpty _ =>
      rcases getElem?_setCall hk with heq | hk
      · cases heq
      · exact absurd hk hnot
    | pop _ _ =>
      rcases getElem?_setCall hk with heq | hk
      · cases heq
      · exact absurd hk hnot
    | ask _ _ _ _ =>
      rcases getElem?_setCall hk with heq | hk
      · cases heq
      · exact absurd hk hnot
    | letGo _ =>
      rcases getElem?_setCall hk with heq | hk
      · cases heq
      · exact absurd hk hnot
    | @putBack k' j n answer c _ hc _ =>
      rcases getElem?_setCall hk with heq | hk
      · rcases hc with hc | ⟨n, hc⟩ <;> exact nomatch heq.symm.trans hc
      · exact absurd hk hnot
    | @putBackClosed k' j n answer _ _ =>
      rcases getElem?_setCall hk with heq | hk
      · cases heq
      · exact absurd hk hnot
    | @handOut k' j n hk' _ =>
      rcases getElem?_setCall hk with heq | hk
      · cases heq
        refine ⟨?_, mem_cons_self, ha.idle k' i n hk'⟩
        intro hheld
        exact nomatch hb.kept.unique (a := .away) (b := .held) (told_asked hk') hheld
      · exact absurd hk hnot
    | allocate c _ hc =>
      rcases getElem?_setCall hk with heq | hk
      · rcases hc with hc | hc <;> exact nomatch heq.symm.trans hc
      · exact absurd hk hnot
    | createFails _ =>
      rcases getElem?_setCall hk with heq | hk
      · cases heq
      · exact absurd hk hnot
    | @refuse k' a _ _ _ =>
      rcases getElem?_setCall hk with heq | hk
      · cases heq
      · exact absurd hk hnot
    | @enlist k' a _ _ _ =>
      rcases getElem?_setCall hk with heq | hk
      · cases heq
        refine ⟨?_, mem_cons_self, ?_⟩
        · exact fun hheld => lt_irrefl _ (hb.lt (.inr hheld))
        · exact fun hused => lt_irrefl _ (ha.used _ hused)
      · exact absurd hk hnot
    | release _ _ =>
      rw [release_calls] at hk
      exact absurd hk hnot
    | _ => exact absurd hk hnot
  · intro i hi hne
    cases hs with
    | handOut _ _ => exact mem_cons_of_mem _ hi
    | enlist _ _ _ => exact mem_cons_of_mem _ hi
    | @release j _ _ => exact release_held cfg hi fun heq => hne (heq ▸ rfl)
    | _ => exact hi

theorem shutsAway (ha : Answered s) : ShutsAway cfg s := by
  intro hclosed k i n answer hk
  have hstep : step cfg s (.settle k) =
      some ((s.settle i n answer).1.setCall k (s.settle i n answer).2) := by
    simp only [step, hk]
  refine ⟨_, hstep, ?_⟩
  have hback : i ∈ (s.putBack i).drainLocked.closes :=
    mem_append_left _ (mem_append_right _ (mem_singleton_self i))
  cases answer with
  | unregistered => exact .inr ⟨mem_cons_self, ha.freed k i n hk⟩
  | raised =>
    have hdrain : (s.putBack i).drainIfClosed = (s.putBack i).drainLocked := if_pos hclosed
    exact .inl (show i ∈ (s.putBack i).drainIfClosed.closes from hdrain ▸ hback)
  | busy =>
    have hdrain : (s.putBack i).drainIfClosed = (s.putBack i).drainLocked := if_pos hclosed
    exact .inl (show i ∈ (s.putBack i).drainIfClosed.closes from hdrain ▸ hback)
  | idle =>
    have hsettle : s.settle i n .idle = ((s.putBack i).drainLocked, .failed) := if_pos hclosed
    rw [hsettle]
    exact .inl hback

theorem start_books : Books .start (asked State.start.calls) := by
  refine ⟨⟨fun _ => none, ⟨?_, ?_⟩, ?_⟩, ?_, ?_, ?_, ?_, rfl, ?_⟩
  · intro a
    cases a <;> exact nodup_nil
  · intro i a
    cases a <;> simp [State.place, State.start, asked]
  · simp [State.start]
  · simp [State.start, asked]
  · intro i j hi
    exact absurd hi (Nat.not_lt_zero i)
  · intro key
    simp [State.start, asked]
  · intro key
    simp [State.start]
  · intro i hi
    exact absurd hi (Finset.notMem_empty i)

theorem run_books {as : List Act} {s₀ : State} (hb : Books s₀ (asked s₀.calls))
    (ha : Answered s₀) (hl : Limits cfg s₀)
    (hp : Along (step cfg) Proper s₀ as) (he : exec (step cfg) s₀ as = some s) :
    Books s (asked s.calls) ∧ Answered s ∧ Limits cfg s := by
  induction as generalizing s₀ with
  | nil =>
    cases he
    exact ⟨hb, ha, hl⟩
  | cons x as ih =>
    cases hx : step cfg s₀ x with
    | none => simp [exec, hx] at he
    | some s₁ =>
      simp only [exec, hx] at he
      rcases hp.next hx with ⟨hproper, hp⟩
      have hs := step_cases hx
      exact ih (step_books hb hproper hs) (step_answered ha hb hs) (step_limits hl hb hs) hp he

end Rules

/-- In every state of a run in which only pools that are checked out are released, each pool that
the cache has created is at one spot; a pool is handed out when it is neither held nor in use; and
once the cache is closed, a pool that is not checked out has been closed, or is away and is closed
when its checkout goes on. -/
theorem pools_accounted (cfg : Config) (as : List Act) (s : State) (hp : Along (step cfg) Proper .start as)
    (he : exec (step cfg) .start as = some s) : Sound cfg s ∧ HandsOutFree cfg s ∧ ShutsAway cfg s := by
  have hstart : Answered State.start := by
    refine ⟨?_, ?_, ?_, ?_⟩ <;> simp [State.start]
  have hlimits : Limits cfg State.start := ⟨fun m _ => Nat.zero_le _, fun _ => rfl⟩
  rcases run_books start_books hstart hlimits hp he with ⟨hb, ha, hl⟩
  exact ⟨sound hb ha hl, handsOutFree hb ha, shutsAway ha⟩

/-- One pool is created and released; a checkout has it when the cache is closed. -/
def closedWhileAway : List Act :=
  [.acquire, .allocate 0, .create 0 (some 7), .release 0, .acquire, .pop 1, .close]

theorem pools_accounted_away :
    Along (step ⟨16, 4, some 2⟩) Proper .start closedWhileAway ∧
      ∃ s, exec (step ⟨16, 4, some 2⟩) .start closedWhileAway = some s ∧ s.closed = true ∧
        Sound ⟨16, 4, some 2⟩ s :=
  have hp : Along (step ⟨16, 4, some 2⟩) Proper .start closedWhileAway := by decide
  ⟨hp, _, rfl, rfl, (pools_accounted ⟨16, 4, some 2⟩ closedWhileAway _ hp rfl).1⟩

/-- The pool is not checked out then, and has not been closed. -/
theorem away_not_closed :
    Along (step ⟨16, 4, some 2⟩) Proper .start closedWhileAway ∧
      ∃ s, exec (step ⟨16, 4, some 2⟩) .start closedWhileAway = some s ∧ s.closed = true ∧ 0 < s.made ∧
        (s.pool 0).own = true ∧ 0 ∉ s.held ∧ 0 ∉ s.closes :=
  ⟨by decide, _, rfl, rfl, by decide, rfl, by decide, by decide⟩

end Pytealet.Io.PoolCache
