import Pytealet.Io.PoolCache

/-!
# PoolForeign — pools that the cache has not created

A pool that comes back is recognised by its `id()`.  The cache keeps the one of a pool that its
holder drops without a release; a later object may have the same, and is taken for the pool when it
is released.
-/

namespace Pytealet.Io.PoolCache

open Lib Lib.Transition Function List

/-- The pool is one of the cache, and has its buffers. -/
def OwnPool (cfg : Config) (s : State) (i : Nat) : Prop :=
  (s.pool i).own = true ∧ (s.pool i).size = cfg.bufferSize ∧ (s.pool i).count = cfg.bufferCount

/-- The pools on the deque, and those that `acquire` returns. -/
def OwnOnly (cfg : Config) (s : State) : Prop :=
  (∀ i ∈ s.free, OwnPool cfg s i) ∧ ∀ k i : Nat, s.calls[k]? = some (.returned i) → OwnPool cfg s i

/-- No pool of other code is released that has the `id()` of one that is checked out. -/
def Recognised (s : State) : Act → Prop
  | .release i => (s.pool i).own = false → s.addr i ∉ s.checkedOut
  | _ => True

instance (s : State) : ∀ x, Decidable (Recognised s x)
  | .release i => inferInstanceAs (Decidable ((s.pool i).own = false → s.addr i ∉ s.checkedOut))
  | .acquire => isTrue trivial
  | .pop _ => isTrue trivial
  | .ask _ _ => isTrue trivial
  | .settle _ => isTrue trivial
  | .allocate _ => isTrue trivial
  | .create _ _ => isTrue trivial
  | .close => isTrue trivial
  | .foreign _ _ _ => isTrue trivial
  | .drop _ => isTrue trivial
  | .use _ => isTrue trivial
  | .unuse _ => isTrue trivial
  | .unregister _ => isTrue trivial

/-- What holds of the pools that the cache can come to, and of those that it has created. -/
structure OwnInv (cfg : Config) (s : State) : Prop where
  free : ∀ i ∈ s.free, i < s.made ∧ (s.pool i).own = true
  asked : ∀ i ∈ asked s.calls, i < s.made ∧ (s.pool i).own = true
  returned : ∀ k i : Nat, s.calls[k]? = some (.returned i) → i < s.made ∧ (s.pool i).own = true
  sized : ∀ i < s.made, (s.pool i).own = true → OwnPool cfg s i

variable {cfg : Config} {s s' : State} {i j k : Nat} {c : Call}

theorem OwnInv.ownOnly (h : OwnInv cfg s) : OwnOnly cfg s := by
  refine ⟨?_, ?_⟩
  · intro i hi
    exact h.sized i (h.free i hi).1 (h.free i hi).2
  · intro k i hk
    exact h.sized i (h.returned k i hk).1 (h.returned k i hk).2

namespace OwnInv

theorem setCall (h : OwnInv cfg s) (k : Nat) (hasked : ∀ i ∈ c.asked, i < s.made ∧ (s.pool i).own = true)
    (hreturned : ∀ i, c = .returned i → i < s.made ∧ (s.pool i).own = true) :
      OwnInv cfg (s.setCall k c) := by
  refine ⟨h.free, ?_, ?_, h.sized⟩
  · intro i hi
    rcases mem_flatMap.1 hi with ⟨d, hd, hid⟩
    rcases mem_or_eq_of_mem_set hd with hd | heq
    · exact h.asked i (mem_flatMap.2 ⟨d, hd, hid⟩)
    · exact hasked i (heq ▸ hid)
  · intro j i hj
    rcases getElem?_setCall hj with heq | hj
    · exact hreturned i heq
    · exact h.returned j i hj

theorem plain (h : OwnInv cfg s) (k : Nat) (hc : c = .failed ∨ c = .creating ∨ ∃ n, c = .looping n) :
    OwnInv cfg (s.setCall k c) := by
  apply h.setCall k
  · intro i hi
    rcases hc with hc | hc | ⟨n, hc⟩ <;> exact absurd (hc ▸ hi) not_mem_nil
  · intro i hi
    rcases hc with hc | hc | ⟨n, hc⟩ <;> exact nomatch hc.symm.trans hi

theorem make (h : OwnInv cfg s) {p : Pool} (hp : p.own = true → p.size = cfg.bufferSize ∧
    p.count = cfg.bufferCount) :
    OwnInv cfg (s.make p) := by
  have hold : ∀ {i}, i < s.made → (s.make p).pool i = s.pool i :=
    fun hi => update_of_ne (ne_of_lt hi) _ _
  have hkeep : ∀ {i}, i < s.made ∧ (s.pool i).own = true → i < (s.make p).made ∧
      ((s.make p).pool i).own = true := by
    intro i hi
    rw [hold hi.1]
    exact ⟨Nat.lt_succ_of_lt hi.1, hi.2⟩
  refine ⟨fun i hi => hkeep (h.free i hi), fun i hi => hkeep (h.asked i hi), fun k i hk =>
    hkeep (h.returned k i hk), ?_⟩
  intro i hi hown
  rcases Nat.lt_succ_iff_lt_or_eq.1 hi with hi | hi
  · have hown' : (s.pool i).own = true := hold hi ▸ hown
    unfold OwnPool
    rw [hold hi]
    exact h.sized i hi hown'
  · have hnew : (s.make p).pool i = p := by
      rw [hi]
      exact update_self _ _ _
    unfold OwnPool
    rw [hnew] at hown ⊢
    exact ⟨hown, hp hown⟩

theorem putBack (h : OwnInv cfg s) (hi : i ∈ PoolCache.asked s.calls) : OwnInv cfg (s.putBack i) := by
  refine ⟨?_, h.asked, h.returned, h.sized⟩
  intro j hj
  rcases mem_append.1 hj with hj | hj
  · exact h.free j hj
  · exact mem_singleton.1 hj ▸ h.asked i hi

theorem release (h : OwnInv cfg s) (hi : i < s.made)
    (hr : (s.pool i).own = false → s.addr i ∉ s.checkedOut) :
    OwnInv cfg (s.release cfg i) := by
  unfold State.release
  dsimp only
  by_cases hfreed : i ∈ s.unregistered
  · rw [if_pos hfreed]
    exact ⟨h.free, h.asked, h.returned, h.sized⟩
  · rw [if_neg hfreed]
    split
    · exact h
    · split
      · rename_i hback
        refine ⟨?_, h.asked, h.returned, h.sized⟩
        intro j hj
        rcases mem_append.1 hj with hj | hj
        · exact h.free j hj
        · rw [mem_singleton.1 hj]
          refine ⟨hi, ?_⟩
          -- what is recognised is one of the cache
          by_contra hown
          exact hr (Bool.eq_false_iff.2 hown) hback.1
      · exact ⟨h.free, h.asked, h.returned, h.sized⟩

end OwnInv

theorem step_own {x : Act} (h : OwnInv cfg s) (hr : Recognised s x) (hs : Step cfg s x s') :
    OwnInv cfg s' := by
  cases hs with
  | acquire c hc =>
    have hnew : ∀ {d : Call}, d ∈ s.calls ++ [c] → d ∈ s.calls ∨ d = c := by
      intro d hd
      rcases mem_append.1 hd with hd | hd
      · exact .inl hd
      · exact .inr (mem_singleton.1 hd)
    refine ⟨h.free, ?_, ?_, h.sized⟩
    · intro i hi
      rcases mem_flatMap.1 hi with ⟨d, hd, hid⟩
      rcases hnew hd with hd | heq
      · exact h.asked i (mem_flatMap.2 ⟨d, hd, hid⟩)
      · rcases hc with hc | ⟨n, hc⟩ <;> exact absurd ((heq.trans hc) ▸ hid) not_mem_nil
    · intro k i hk
      rcases hnew (mem_of_getElem? hk) with hd | heq
      · rcases List.getElem?_of_mem hd with ⟨k', hk'⟩
        exact h.returned k' i hk'
      · rcases hc with hc | ⟨n, hc⟩ <;> exact nomatch heq.trans hc
  | popEmpty _ => exact h.plain _ (.inr (.inr ⟨0, rfl⟩))
  | @pop k n i rest _ hfree =>
    have hi : i ∈ s.free := hfree ▸ mem_cons_self
    have hpop : OwnInv cfg { s with free := rest, away := s.away + 1 } :=
      ⟨fun j hj => h.free j (hfree ▸ mem_cons_of_mem i hj), h.asked, h.returned, h.sized⟩
    apply hpop.setCall k
    · intro j hj
      exact mem_singleton.1 hj ▸ h.free i hi
    · exact fun _ heq => nomatch heq
  | @ask k i n raises answer hk _ _ =>
    apply h.setCall k
    · intro j hj
      have hi : i ∈ asked s.calls := mem_flatMap.2 ⟨_, mem_of_getElem? hk, mem_singleton_self i⟩
      exact mem_singleton.1 hj ▸ h.asked i hi
    · exact fun _ heq => nomatch heq
  | @letGo k i n _ =>
    have hgone : OwnInv cfg { s with away := s.away - 1, parked := s.parked.erase (s.addr i), gone := i :: s.gone } :=
      ⟨h.free, h.asked, h.returned, h.sized⟩
    exact hgone.plain k (.inr (.inr ⟨n, rfl⟩))
  | putBack c hk hc _ => exact (h.putBack (told_asked hk)).plain _ (hc.imp_right .inr)
  | @putBackClosed k i n answer hk _ =>
    have hback := h.putBack (told_asked hk)
    have hdrain : OwnInv cfg (s.putBack i).drainLocked :=
      ⟨fun j hj => absurd hj not_mem_nil, hback.asked, hback.returned, hback.sized⟩
    exact hdrain.plain k (.inl rfl)
  | @handOut k i n hk _ =>
    have hout : OwnInv cfg { s with away := s.away - 1, parked := s.parked.erase (s.addr i),
                                    checkedOut := insert (s.addr i) s.checkedOut, held := i :: s.held } :=
      ⟨h.free, h.asked, h.returned, h.sized⟩
    apply hout.setCall k
    · exact fun j hj => absurd hj not_mem_nil
    · intro j heq
      cases heq
      exact h.asked i (told_asked hk)
  | allocate c _ hc => exact h.plain _ (hc.imp_right .inl)
  | createFails _ => exact h.plain _ (.inl rfl)
  | @refuse k a _ _ _ =>
    have hmade : OwnInv cfg (s.make ⟨a, cfg.bufferSize, cfg.bufferCount, true⟩) :=
      h.make fun _ => ⟨rfl, rfl⟩
    have hrefused :
        OwnInv cfg { s.make ⟨a, cfg.bufferSize, cfg.bufferCount, true⟩ with closes := s.made ::
          s.closes } :=
      ⟨hmade.free, hmade.asked, hmade.returned, hmade.sized⟩
    exact hrefused.plain k (.inl rfl)
  | @enlist k a _ _ _ =>
    have hmade : OwnInv cfg (s.make ⟨a, cfg.bufferSize, cfg.bufferCount, true⟩) :=
      h.make fun _ => ⟨rfl, rfl⟩
    have hlisted : OwnInv cfg { s.make ⟨a, cfg.bufferSize, cfg.bufferCount, true⟩ with
        checkedOut := insert a s.checkedOut, held := s.made :: s.held } :=
      ⟨hmade.free, hmade.asked, hmade.returned, hmade.sized⟩
    apply hlisted.setCall k
    · exact fun j hj => absurd hj not_mem_nil
    · intro j heq
      cases heq
      refine ⟨Nat.lt_succ_self _, ?_⟩
      change (update s.pool s.made _ s.made).own = true
      rw [update_self]
  | release hi _ => exact h.release hi hr
  | close => exact ⟨fun j hj => absurd hj not_mem_nil, h.asked, h.returned, h.sized⟩
  | foreign _ => exact h.make fun hown => nomatch hown
  | _ => exact ⟨h.free, h.asked, h.returned, h.sized⟩

/-- If no foreign pool is released under the `id()` of a pool that is checked out, the cache keeps
and returns its own pools only. -/
theorem own_pools_only (cfg : Config) (as : List Act) (hr : Along (step cfg) Recognised .start as) :
    Always (step cfg) (OwnOnly cfg) .start as := by
  have hstart : OwnInv cfg .start := by
    refine ⟨?_, ?_, ?_, ?_⟩ <;> simp [State.start, asked]
  exact always_of_along (fun _ h => h.ownOnly) (fun _ _ _ h hr hs => step_own h hr (step_cases hs))
    as _ hstart hr

/-- The holder drops a pool, another one gets its address and is released. -/
def foreignReturn : List Act :=
  [.acquire, .allocate 0, .create 0 (some 7), .drop 0, .foreign 7 1 1, .release 1, .acquire,
    .pop 1, .ask 1 false, .settle 1]

theorem own_pools_only_released :
    Played (step ⟨16, 4, none⟩) (Always (step ⟨16, 4, none⟩) (OwnOnly ⟨16, 4, none⟩)) .start
      [.acquire, .allocate 0, .create 0 (some 7), .foreign 8 1 1, .release 1, .release 0] :=
  ⟨own_pools_only ⟨16, 4, none⟩ _ (by decide), by decide⟩

theorem foreign_pool_returned :
    ∃ s, exec (step ⟨16, 4, none⟩) .start foreignReturn = some s ∧ s.calls[1]? = some (.returned 1) ∧
      (s.pool 1).own = false ∧ ¬ Always (step ⟨16, 4, none⟩)
      (OwnOnly ⟨16, 4, none⟩) .start foreignReturn := by
  refine ⟨_, rfl, rfl, rfl, ?_⟩
  intro h
  have hlast := h.exec (show exec (step ⟨16, 4, none⟩) .start foreignReturn = some _ from rfl)
  exact nomatch (hlast.2 1 1 rfl).1

end Pytealet.Io.PoolCache
