import Pytealet.Tealet.ThreadRing

/-!
# ThreadSweep — the records of threads that have ended

`PyTealet_ThreadSweep` walks the ring once.  A record whose thread is neither known nor found alive
is moved to a second ring; when the walk has ended, or has failed, the records of the second ring
are reaped.  A thread counts as live when it is among the known ones, or the probe finds it alive.
-/

namespace Pytealet.Tealet.ThreadSweep

open ThreadRing List

inductive Ring
  | thread
  | detached
  deriving DecidableEq, Repr

variable {ν τ : Type*} [DecidableEq ν] [DecidableEq τ]

/-- What the calls into Python give. -/
structure Env (ν τ : Type*) where
  tid : ν → τ
  /-- the current thread and the keys of `threading._active` -/
  known : List τ
  /-- `PyTealet_LineageThreadIdentIsAlive`, `none` when it cannot tell -/
  probe : τ → Option Bool
  /-- `PyList_New`, or collecting the known threads, fails -/
  startFails : Bool := false
  /-- `pytealet_tid_set_contains` fails for the `i`-th record -/
  containsFails : Nat → Bool := fun _ => false
  /-- `pytealet_tid_set_add` fails for the `i`-th record -/
  addFails : Nat → Bool := fun _ => false

/-- The count of the records, by going around the ring. -/
def countRing (w : Rings Ring ν) : Nat → ν → Option Nat
  | 0, _ => none
  | fuel + 1, cursor =>
    match w.next cursor with
    | none => none
    | some next => if w.anchor .thread = some next then some 1 else (countRing w fuel next).map (· + 1)

/-- The walk over the records that were counted, from the `i`-th on: whether it ends without an
error. -/
def sweepLoop (E : Env ν τ) : Nat → Nat → Rings Ring ν → List τ → ν → Option (Bool × Rings Ring ν)
  | 0, _, w, _, _ => some (true, w)
  | n + 1, i, w, known, cursor =>
    match w.next cursor with
    | none => none
    | some next =>
      if E.containsFails i then some (false, w)
      else if E.tid cursor ∈ known then sweepLoop E n (i + 1) w known next
      else if E.probe (E.tid cursor) = some true then
        if E.addFails i then some (false, w) else sweepLoop E n (i + 1) w (E.tid cursor :: known) next
      else sweepLoop E n (i + 1) ((w.remove .thread cursor).append .detached cursor) known next

/-- `PyTealet_LineageReapInner`: what it does to the ring of a record that has been taken from the
second ring. -/
def reapInner (w : Rings Ring ν) (m : ν) : Rings Ring ν :=
  w.remove .thread m

/-- `pytealet_detached_ring_drain`, and the loop of the normal path: the records that it reaps. -/
def drain : Nat → Rings Ring ν → List ν → Option (Rings Ring ν × List ν)
  | fuel, w, reaped =>
    match w.pop .detached, fuel with
    | (none, w), _ => some (w, reaped)
    | (some _, _), 0 => none
    | (some m, w), fuel + 1 => drain fuel (reapInner w m) (reaped ++ [m])

/-- `PyTealet_ThreadSweep`: whether it returns a list, and what it has reaped. -/
def threadSweep (E : Env ν τ) (fuel : Nat) (w : Rings Ring ν) : Option (Bool × Rings Ring ν × List ν) :=
  if E.startFails then some (false, w, [])
  else
    let walked :=
      match w.anchor .thread with
      | none => some (true, w)
      | some head =>
        match countRing w fuel head with
        | none => none
        | some count => sweepLoop E count 0 w E.known head
    match walked with
    | none => none
    | some (ok, w) =>
      match drain fuel w [] with
      | none => none
      | some (w, reaped) => some (ok, w, reaped)

/-- The thread of the record is live. -/
def Env.live (E : Env ν τ) (m : ν) : Bool :=
  decide (E.tid m ∈ E.known) || decide (E.probe (E.tid m) = some true)

/-- The known threads are live, and the probe tells of each other thread whether it is. -/
structure Env.Tells (E : Env ν τ) (live : τ → Bool) : Prop where
  known : ∀ t ∈ E.known, live t = true
  probe : ∀ t ∉ E.known, E.probe t = some (live t)

omit [DecidableEq ν] in
theorem Env.Tells.live_eq {E : Env ν τ} {live : τ → Bool} (h : E.Tells live) (m : ν) :
    E.live m = live (E.tid m) := by
  by_cases hm : E.tid m ∈ E.known
  · simp [Env.live, hm, h.known _ hm]
  · simp [Env.live, hm, h.probe _ hm]

/-- The two rings. -/
def two (thread detached : List ν) : Ring → List ν
  | .thread => thread
  | .detached => detached

/-! ## The walk -/

variable {E : Env ν τ} {w : Rings Ring ν}

omit [DecidableEq ν] in
@[simp] theorem update_thread (a b l : List ν) : Function.update (two a b) .thread l = two l b := by
  funext r
  cases r <;> rfl

omit [DecidableEq ν] in
@[simp] theorem update_detached (a b l : List ν) : Function.update (two a b) .detached l = two a l := by
  funext r
  cases r <;> rfl

omit [DecidableEq ν] in
theorem next_eq {r : Ring} {a b : List ν} {c n : ν} (h : w.Holds r (a ++ c :: n :: b)) :
    w.next c = some n :=
  (isChain_cons_cons.mp (isChain_append.mp h.chain).2.1).1.1

theorem countRing_eq {a b : List ν} {c : ν} {fuel : Nat} (h : w.Holds .thread (a ++ c :: b))
    (hnodup : (a ++ c :: b).Nodup)
    (hfuel : b.length < fuel) : countRing w fuel c = some (b.length + 1) := by
  induction b generalizing a c fuel with
  | nil =>
    rcases fuel with _ | fuel
    · exact absurd hfuel (Nat.not_lt_zero _)
    · have hne : a ++ [c] ≠ [] := by simp
      have hhead := List.head?_eq_some_head hne
      have hnext := (h.closed c (by simp) _ hhead).1
      have hanchor : w.anchor .thread = some _ := h.anchor.trans hhead
      simp only [countRing, hnext, hanchor, if_true, length_nil, Nat.zero_add]
  | cons n b ih =>
    rcases fuel with _ | fuel
    · exact absurd hfuel (Nat.not_lt_zero _)
    · have hsplit : a ++ c :: n :: b = (a ++ [c]) ++ n :: b := by simp
      have hanchor : w.anchor .thread ≠ some n := by
        rw [h.anchor]
        intro hhead
        rw [hsplit] at hnodup
        have hmem : n ∈ a ++ [c] := by
          cases a with
          | nil =>
            cases hhead
            exact mem_cons_self
          | cons x a =>
            cases hhead
            exact mem_cons_self
        exact (nodup_append.mp hnodup).2.2 n hmem n mem_cons_self rfl
      have hrest := ih (hsplit ▸ h) (hsplit ▸ hnodup) (Nat.lt_of_succ_lt_succ hfuel)
      simp only [countRing, next_eq h, if_neg hanchor, hrest, Option.map_some, length_cons]

theorem sweepLoop_spec (pre : List ν) {rest : List ν} {i : Nat} {known : List τ} {c : ν}
    (h : w.Represents (two (pre.filter E.live ++ rest) (pre.filter fun m => !E.live m)))
    (hknown : ∀ t ∈ E.known, t ∈ known) (hsound : ∀ t ∈ known, t ∈ E.known ∨ E.probe t = some true)
    (hc : ∀ x ∈ rest.head?, c = x) :
    ∃ ok w' pre' rest', sweepLoop E rest.length i w known c = some (ok, w') ∧ pre' ++ rest' = pre ++ rest ∧
      w'.Represents (two (pre'.filter E.live ++ rest') (pre'.filter fun m => !E.live m)) ∧
        (ok = true → rest' = []) := by
  induction rest generalizing pre i known c w with
  | nil => exact ⟨true, w, pre, [], rfl, rfl, h, fun _ => rfl⟩
  | cons m rest ih =>
    have hcm : c = m := hc m rfl
    subst hcm
    have hmem : c ∈ pre.filter E.live ++ c :: rest := mem_append_right _ mem_cons_self
    rcases (h.holds .thread).links hmem with ⟨_, _, n, _, _, hnext⟩
    -- the next record, if there is one
    have hn : ∀ x ∈ rest.head?, n = x := by
      intro x hx
      cases rest with
      | nil => cases hx
      | cons y rest =>
        cases hx
        exact Option.some.inj (hnext.symm.trans (next_eq (h.holds .thread)))
    have hstop : ∃ ok w' pre' rest', some (false, w) = some (ok, w') ∧ pre' ++ rest' = pre ++ c :: rest ∧
        w'.Represents (two (pre'.filter E.live ++ rest') (pre'.filter fun m => !E.live m)) ∧
          (ok = true → rest' = []) :=
      ⟨false, w, pre, c :: rest, rfl, rfl, h, nofun⟩
    -- a record that stays
    have hstay : E.live c = true →
        w.Represents (two ((pre ++ [c]).filter E.live ++ rest)
          ((pre ++ [c]).filter fun m => !E.live m)) := by
      intro hlive
      simpa [hlive] using h
    have hsame : pre ++ [c] ++ rest = pre ++ c :: rest := by simp
    simp only [length_cons, sweepLoop, hnext]
    split
    · exact hstop
    · split
      · rename_i hin
        have hlive : E.live c = true := by
          rcases hsound _ hin with hin | hprobe
          · simp [Env.live, hin]
          · simp [Env.live, hprobe]
        rcases ih (i := i + 1) (pre ++ [c]) (hstay hlive) hknown hsound hn with
          ⟨ok, w', pre', rest', heq, hsplit, hrep, hok⟩
        exact ⟨ok, w', pre', rest', heq, hsplit.trans hsame, hrep, hok⟩
      · rename_i hout
        split
        · rename_i hprobe
          split
          · exact hstop
          · have hlive : E.live c = true := by simp [Env.live, hprobe]
            rcases ih (i := i + 1) (pre ++ [c]) (hstay hlive)
              (fun t ht => mem_cons_of_mem _ (hknown t ht)) (fun t ht => by
                rcases mem_cons.mp ht with rfl | ht
                · exact Or.inr hprobe
                · exact hsound t ht) hn with ⟨ok, w', pre', rest', heq, hsplit, hrep, hok⟩
            exact ⟨ok, w', pre', rest', heq, hsplit.trans hsame, hrep, hok⟩
        · rename_i hprobe
          have hlive : E.live c = false := by
            have hnot : E.tid c ∉ E.known := fun hin => hout (hknown _ hin)
            simp [Env.live, hnot, hprobe]
          -- the record moves to the second ring
          have hnodup : (pre.filter E.live ++ c :: rest).Nodup := h.nodup .thread
          have hnot : c ∉ pre.filter E.live :=
            fun hin => (nodup_append.mp hnodup).2.2 c hin c mem_cons_self rfl
          have hremoved := h.remove (r := .thread) hmem
          rw [update_thread] at hremoved
          have herase :
              (two (pre.filter E.live ++ c :: rest) (pre.filter fun m => !E.live m) .thread).erase
                c =
              pre.filter E.live ++ rest := by
            show (pre.filter E.live ++ c :: rest).erase c = _
            rw [erase_append_right _ hnot, erase_cons_head]
          rw [herase] at hremoved
          have hfree : ∀ r, c ∉ two (pre.filter E.live ++ rest) (pre.filter fun m => !E.live m) r := by
            intro r hin
            cases r with
            | thread =>
              have hgone : c ∉ pre.filter E.live ++ rest := by
                rw [← herase]
                exact hnodup.not_mem_erase
              exact hgone hin
            | detached => exact nomatch h.apart .thread .detached c hmem hin
          have hmoved := hremoved.append (r := .detached) hfree
          rw [update_detached] at hmoved
          have hstate : ((w.remove .thread c).append .detached c).Represents
              (two ((pre ++ [c]).filter E.live ++ rest) ((pre ++ [c]).filter fun m => !E.live m)) := by
            simpa [hlive, two] using hmoved
          rcases ih (i := i + 1) (pre ++ [c]) hstate hknown hsound hn with
            ⟨ok, w', pre', rest', heq, hsplit, hrep, hok⟩
          exact ⟨ok, w', pre', rest', heq, hsplit.trans hsame, hrep, hok⟩

/-! ## Reaping -/

omit [DecidableEq τ] in
theorem drain_spec {kept detached : List ν} {fuel : Nat} (h : w.Represents (two kept detached))
    (reaped : List ν)
    (hfuel : detached.length ≤ fuel) :
    ∃ w', drain fuel w reaped = some (w', reaped ++ detached) ∧ w'.Represents (two kept []) := by
  induction detached generalizing w reaped fuel with
  | nil =>
    rcases h.pop .detached with ⟨hout, hrep⟩
    rw [update_detached] at hrep
    refine ⟨(w.pop .detached).2, ?_, hrep⟩
    have hpop : w.pop .detached = (none, (w.pop .detached).2) := Prod.ext hout rfl
    unfold drain
    rw [hpop, append_nil]
  | cons m detached ih =>
    rcases fuel with _ | fuel
    · exact absurd hfuel (Nat.not_succ_le_zero _)
    · rcases h.pop .detached with ⟨hout, hrep⟩
      rw [update_detached] at hrep
      have hpop : w.pop .detached = (some m, (w.pop .detached).2) := Prod.ext hout rfl
      -- the record is in no ring when it is reaped
      have hfree : ∀ r, m ∉ two kept detached r := by
        intro r hin
        cases r with
        | thread => exact nomatch h.apart .thread .detached m hin mem_cons_self
        | detached => exact (nodup_cons.mp (h.nodup .detached)).1 hin
      have hreap : reapInner (w.pop .detached).2 m = (w.pop .detached).2 := hrep.remove_free hfree
      rcases ih hrep (reaped ++ [m]) (Nat.le_of_succ_le_succ hfuel) with ⟨w', hdrain, hlast⟩
      refine ⟨w', ?_, hlast⟩
      unfold drain
      rw [hpop]
      dsimp only
      rw [hreap, hdrain, append_assoc]
      rfl

/-- The records that stay are in their order, and each of the others is reaped once; none of a live
thread is.  If the sweep does not fail, those of the live threads stay. -/
theorem threadSweep_spec (E : Env ν τ) (w : Rings Ring ν) (l : List ν) (h : w.Represents (two l []))
    (fuel : Nat)
    (hfuel : l.length ≤ fuel) :
    ∃ ok w' reaped kept, threadSweep E fuel w = some (ok, w', reaped) ∧
      w'.Represents (two kept []) ∧ kept.Sublist l ∧
      (reaped ++ kept).Perm l ∧ (∀ m ∈ reaped, E.live m = false) ∧
      (ok = true → kept = l.filter E.live ∧ reaped = l.filter fun m => !E.live m) := by
  unfold threadSweep
  cases hstart : E.startFails with
  | true => exact ⟨false, w, [], l, rfl, h, List.Sublist.refl l, List.Perm.refl l, nofun, nofun⟩
  | false =>
    -- the walk, also around an empty ring
    have hwalk : ∃ ok w₁ pre rest, (match w.anchor .thread with
          | none => some (true, w)
          | some head =>
            match countRing w fuel head with
            | none => none
            | some count => sweepLoop E count 0 w E.known head) = some (ok, w₁) ∧ pre ++ rest = l ∧
        w₁.Represents (two (pre.filter E.live ++ rest) (pre.filter fun m => !E.live m)) ∧
          (ok = true → rest = []) := by
      have hanchor : w.anchor .thread = l.head? := (h.holds .thread).anchor
      cases l with
      | nil =>
        rw [hanchor]
        exact ⟨true, w, [], [], rfl, rfl, h, fun _ => rfl⟩
      | cons c rest =>
        rw [hanchor]
        dsimp only [List.head?_cons]
        rw [countRing_eq (a := []) (h.holds .thread) (h.nodup .thread) hfuel]
        exact sweepLoop_spec [] h (fun _ ht => ht) (fun _ ht => Or.inl ht) fun x hx => by
          cases hx
          rfl
    rcases hwalk with ⟨ok, w₁, pre, rest, hwalk, hsplit, hrep, hok⟩
    have hlength : (pre.filter fun m => !E.live m).length ≤ fuel := by
      have hle : (pre.filter fun m => !E.live m).length ≤ pre.length := length_filter_le _ _
      have hlen := congrArg List.length hsplit
      rw [length_append] at hlen
      omega
    rcases drain_spec hrep [] hlength with ⟨w', hdrain, hlast⟩
    refine ⟨ok, w', pre.filter fun m => !E.live m, pre.filter E.live ++ rest, ?_, hlast, ?_, ?_, ?_, ?_⟩
    · rw [if_neg Bool.false_ne_true]
      dsimp only
      rw [hwalk]
      dsimp only
      rw [hdrain]
      rfl
    · rw [← hsplit]
      exact filter_sublist.append (List.Sublist.refl rest)
    · rw [← hsplit, ← append_assoc]
      exact (perm_append_comm.trans (filter_append_perm E.live pre)).append_right rest
    · intro m hm
      simpa using (mem_filter.mp hm).2
    · intro htrue
      cases hok htrue
      rw [append_nil] at hsplit
      rw [hsplit, append_nil]
      exact ⟨rfl, rfl⟩

/-- The rings refine lists under every sequence of operations; a sweep keeps the order of what
stays, reaps each of the others once and none of a live thread, and if it does not fail, all of the
threads that have ended.  Live is what the known threads and the probe tell. -/
theorem rings_swept (E : Env ν τ) (w : Rings Ring ν) (lists : Ring → List ν) (hw : w.Represents lists)
    (ops : List (Rings.Op Ring ν)) (hops : Rings.AllLegal lists ops) (w₀ : Rings Ring ν) (l : List ν)
    (hl : w₀.Represents (two l [])) (fuel : Nat) (hfuel : l.length ≤ fuel) :
    ((w.calls ops).1 = (Rings.callsLists lists ops).1 ∧
      (w.calls ops).2.Represents (Rings.callsLists lists ops).2) ∧
    (∃ ok w' reaped kept, threadSweep E fuel w₀ = some (ok, w', reaped) ∧
      w'.Represents (two kept []) ∧ kept.Sublist l ∧
      (reaped ++ kept).Perm l ∧ (∀ m ∈ reaped, E.live m = false) ∧
      (ok = true → kept = l.filter E.live ∧ reaped = l.filter fun m => !E.live m)) ∧
    ∀ live, E.Tells live → ∀ m, E.live m = live (E.tid m) :=
  ⟨hw.calls hops, threadSweep_spec E w₀ l hl fuel hfuel, fun _ => Env.Tells.live_eq⟩

/-! ## Three records -/

/-- The ring of the records 1, 2 and 3. -/
def threeRecords : Rings Ring Nat :=
  (({} : Rings Ring Nat).calls [.append .thread 1, .append .thread 2, .append .thread 3]).2

theorem threeRecords_represents : threeRecords.Represents (two [1, 2, 3] []) := by
  have hlegal : Rings.AllLegal (fun _ : Ring => ([] : List Nat))
      [.append .thread 1, .append .thread 2, .append .thread 3] := by
    refine ⟨?_, ?_, ?_, trivial⟩
    all_goals
      intro r
      cases r <;> decide
  have hcalls := (Rings.Represents.empty.calls hlegal).2
  have hlists : (Rings.callsLists (fun _ : Ring => ([] : List Nat))
      [.append .thread 1, .append .thread 2, .append .thread 3]).2 = two [1, 2, 3] [] := by
    funext r
    cases r <;> rfl
  rwa [hlists] at hcalls

/-- Only the second thread is live. -/
def secondLives : Env Nat Nat where
  tid m := m
  known := [2]
  probe _ := some false

theorem rings_swept_three :
    ((threeRecords.calls [.pop .thread, .append .detached 1, .remove .thread 3, .pop .detached]).1 =
        (Rings.callsLists (two [1, 2, 3] []) [.pop .thread, .append .detached 1,
          .remove .thread 3, .pop .detached]).1 ∧
      (threeRecords.calls [.pop .thread, .append .detached 1, .remove .thread 3,
        .pop .detached]).2.Represents
        (Rings.callsLists (two [1, 2, 3] []) [.pop .thread, .append .detached 1,
          .remove .thread 3, .pop .detached]).2) ∧
    (∃ ok w' reaped kept, threadSweep secondLives 3 threeRecords = some (ok, w', reaped) ∧
      w'.Represents (two kept []) ∧
      kept.Sublist [1, 2, 3] ∧ (reaped ++ kept).Perm [1, 2, 3] ∧
        (∀ m ∈ reaped, secondLives.live m = false) ∧
      (ok = true → kept = [1, 2, 3].filter secondLives.live ∧
        reaped = [1, 2, 3].filter fun m => !secondLives.live m)) ∧
    ∀ m, secondLives.live m = (m == 2) := by
  have htells : secondLives.Tells (· == 2) := ⟨by decide, by simp [secondLives]⟩
  refine (fun h => ⟨h.1, h.2.1, h.2.2 _ htells⟩) <|
    rings_swept secondLives threeRecords (two [1, 2, 3] []) threeRecords_represents
    [.pop .thread, .append .detached 1, .remove .thread 3, .pop .detached]
      ⟨trivial, ?_, ?_, trivial, trivial⟩
    threeRecords [1, 2, 3] threeRecords_represents 3 (Nat.le_refl 3)
  all_goals
    intro r
    cases r <;> decide

/-- The set of the known threads fails for the second record: the first one is reaped, and the third
one, whose thread has ended as well, stays. -/
theorem ended_thread_stays :
    ((threadSweep { secondLives with containsFails := fun i => decide (i = 1) } 3 threeRecords).map fun r =>
      (r.1, r.2.2, r.2.1.next 2)) = some (false, [1], some 3) ∧ secondLives.live 3 = false := by
  decide

end Pytealet.Tealet.ThreadSweep
