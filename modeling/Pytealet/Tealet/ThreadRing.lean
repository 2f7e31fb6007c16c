import Mathlib.Data.List.Chain
import Mathlib.Data.List.Nodup
import Mathlib.Logic.Function.Basic

/-!
# ThreadRing — the circular rings of thread data

The records of the threads are linked in a ring, whose anchor points at one of them.  A sweep moves
records to a second ring.  The links of a record that is in no ring are `NULL`.

A ring holds a list without duplicates: it is read from the anchor on, and closed by the links
between its last and its first record.
-/

namespace Pytealet.Tealet.ThreadRing

open List

open Function (update_of_ne update_self)

/-- The links of the records `ν`, and the anchors of the rings `ρ`. -/
structure Rings (ρ ν : Type*) where
  prev : ν → Option ν := fun _ => none
  next : ν → Option ν := fun _ => none
  anchor : ρ → Option ν := fun _ => none

variable {ρ ν : Type*} [DecidableEq ρ] [DecidableEq ν]

namespace Rings

/-- `pytealet_ring_append` -/
def append (w : Rings ρ ν) (r : ρ) (m : ν) : Rings ρ ν :=
  match w.anchor r with
  | none =>
    { prev := Function.update w.prev m (some m)
      next := Function.update w.next m (some m)
      anchor := Function.update w.anchor r (some m) }
  | some head =>
    match w.prev head with
    -- `assert(tail)`
    | none => w
    | some tail =>
      { w with
        prev := Function.update (Function.update w.prev m (some tail)) head (some m)
        next := Function.update (Function.update w.next m (some head)) tail (some m) }

/-- `pytealet_ring_remove` -/
def remove (w : Rings ρ ν) (r : ρ) (m : ν) : Rings ρ ν :=
  match w.prev m, w.next m with
  | some p, some n =>
    if n = m then
      { prev := Function.update w.prev m none
        next := Function.update w.next m none
        anchor := if w.anchor r = some m then Function.update w.anchor r none else w.anchor }
    else
      { prev := Function.update (Function.update w.prev n (some p)) m none
        next := Function.update (Function.update w.next p (some n)) m none
        anchor := if w.anchor r = some m then Function.update w.anchor r (some n) else w.anchor }
  | _, _ => w

/-- `pytealet_ring_pop` -/
def pop (w : Rings ρ ν) (r : ρ) : Option ν × Rings ρ ν :=
  match w.anchor r with
  | none => (none, w)
  | some head => (some head, w.remove r head)

/-- Two records that follow each other. -/
def Adjacent (w : Rings ρ ν) (a b : ν) : Prop :=
  w.next a = some b ∧ w.prev b = some a

/-- The ring holds the list. -/
structure Holds (w : Rings ρ ν) (r : ρ) (l : List ν) : Prop where
  anchor : w.anchor r = l.head?
  chain : l.IsChain w.Adjacent
  closed : ∀ y ∈ l.getLast?, ∀ x ∈ l.head?, w.Adjacent y x

/-- The rings hold lists without duplicates, each record in one at most; the other records are
free. -/
structure Represents (w : Rings ρ ν) (lists : ρ → List ν) : Prop where
  holds : ∀ r, w.Holds r (lists r)
  nodup : ∀ r, (lists r).Nodup
  apart : ∀ r r' m, m ∈ lists r → m ∈ lists r' → r = r'
  free : ∀ m, (∀ r, m ∉ lists r) → w.prev m = none ∧ w.next m = none

end Rings

/-! ## Chains -/

omit [DecidableEq ν] in
theorem chain_imp {R S : ν → ν → Prop} {l : List ν} (h : l.IsChain R)
    (hRS : ∀ a ∈ l.dropLast, ∀ b ∈ l.tail, R a b → S a b) : l.IsChain S := by
  induction l with
  | nil => exact .nil
  | cons a l ih =>
    cases l with
    | nil => exact .singleton a
    | cons b l =>
      rcases isChain_cons_cons.mp h with ⟨hab, htail⟩
      refine isChain_cons_cons.mpr ⟨hRS a mem_cons_self b mem_cons_self hab, ih htail ?_⟩
      intro x hx y hy
      exact hRS x (mem_cons_of_mem a hx) y (mem_cons_of_mem b hy)

omit [DecidableEq ν] in
theorem ne_getLast {l : List ν} (h : l.Nodup) {a y : ν} (ha : a ∈ l.dropLast)
    (hy : y ∈ l.getLast?) : a ≠ y := by
  rintro rfl
  rcases mem_getLast?_eq_getLast hy with ⟨hne, heq⟩
  rw [← dropLast_append_getLast hne, ← heq] at h
  exact (nodup_append.mp h).2.2 a ha a mem_cons_self rfl

omit [DecidableEq ν] in
theorem ne_head {l : List ν} (h : l.Nodup) {b x : ν} (hb : b ∈ l.tail) (hx : x ∈ l.head?) : b ≠ x := by
  rintro rfl
  cases l with
  | nil => cases hx
  | cons y l =>
    cases hx
    exact (nodup_cons.mp h).1 hb

namespace Rings

variable {w w' : Rings ρ ν} {r : ρ} {l : List ν} {m : ν}

omit [DecidableEq ρ] [DecidableEq ν] in
theorem Holds.congr (h : w.Holds r l) (hanchor : w'.anchor r = w.anchor r)
    (hlinks : ∀ m ∈ l, w'.next m = w.next m ∧ w'.prev m = w.prev m) : w'.Holds r l := by
  have hadj : ∀ a ∈ l, ∀ b ∈ l, w.Adjacent a b → w'.Adjacent a b := by
    intro a ha b hb hab
    exact ⟨(hlinks a ha).1.trans hab.1, (hlinks b hb).2.trans hab.2⟩
  refine ⟨hanchor.trans h.anchor, h.chain.imp_of_mem_imp fun a b ha hb => hadj a ha b hb,
    fun y hy x hx => ?_⟩
  exact hadj y (mem_of_getLast? hy) x (mem_of_head? hx) (h.closed y hy x hx)

/-! ## Appending -/

theorem Holds.append (h : w.Holds r l) (hnodup : l.Nodup) (hm : m ∉ l) :
    (w.append r m).Holds r (l ++ [m]) := by
  unfold Rings.append
  cases hhead : l.head? with
  | none =>
    cases List.head?_eq_none_iff.mp hhead
    rw [h.anchor, hhead]
    refine ⟨update_self .., .singleton m, fun y hy x hx => ?_⟩
    cases hy
    cases hx
    exact ⟨update_self .., update_self ..⟩
  | some head =>
    have hne : l ≠ [] := by
      rintro rfl
      cases hhead
    have htail : l.getLast hne ∈ l.getLast? := List.getLast?_eq_some_getLast hne
    generalize l.getLast hne = tail at htail
    have hclosed := h.closed tail htail head hhead
    have hmtail : tail ≠ m := fun heq => hm (heq ▸ mem_of_getLast? htail)
    have hmhead : head ≠ m := fun heq => hm (heq ▸ mem_of_head? hhead)
    rw [h.anchor, hhead]
    dsimp only
    rw [hclosed.2]
    dsimp only
    refine ⟨?_, isChain_append.mpr ⟨chain_imp h.chain ?_, .singleton m, ?_⟩, ?_⟩
    · rw [List.head?_append, hhead]
      exact h.anchor.trans hhead
    · -- the links inside of the list are as they were
      intro a ha b hb hab
      have ham : a ≠ m := fun heq => hm (heq ▸ (dropLast_sublist l).subset ha)
      have hbm : b ≠ m := fun heq => hm (heq ▸ mem_of_mem_tail hb)
      refine ⟨?_, ?_⟩
      · simpa only [update_of_ne (ne_getLast hnodup ha htail), update_of_ne ham] using hab.1
      · simpa only [update_of_ne (ne_head hnodup hb hhead), update_of_ne hbm] using hab.2
    · intro y hy x hx
      cases hx
      have heq : y = tail := Option.some.inj (hy.symm.trans htail)
      subst heq
      refine ⟨update_self .., ?_⟩
      simp only [update_of_ne hmhead.symm, update_self]
    · intro y hy x hx
      rw [List.getLast?_concat] at hy
      rw [List.head?_append, hhead] at hx
      cases hy
      cases hx
      refine ⟨?_, update_self ..⟩
      simp only [update_of_ne hmtail.symm, update_self]

theorem Holds.append_other (h : w.Holds r l) {x : ν} (hx : x ≠ m) (hxl : x ∉ l) :
    (w.append r m).next x = w.next x ∧ (w.append r m).prev x = w.prev x := by
  unfold Rings.append
  split
  · exact ⟨update_of_ne hx .., update_of_ne hx ..⟩
  · rename_i head hanchor
    split
    · exact ⟨rfl, rfl⟩
    · rename_i tail hprev
      have hhead : head ∈ l.head? := h.anchor.symm.trans hanchor
      have hne : l ≠ [] := by
        rintro rfl
        cases hhead
      have hlast := List.getLast?_eq_some_getLast hne
      have hclosed := h.closed _ hlast head hhead
      have htail : tail ∈ l := by
        rw [Option.some.inj (hprev.symm.trans hclosed.2)]
        exact getLast_mem hne
      have hxhead : x ≠ head := fun heq => hxl (heq ▸ mem_of_head? hhead)
      have hxtail : x ≠ tail := fun heq => hxl (heq ▸ htail)
      simp only [update_of_ne hx, update_of_ne hxhead, update_of_ne hxtail, and_self]

theorem append_anchor {r' : ρ} (hr : r' ≠ r) : (w.append r m).anchor r' = w.anchor r' := by
  unfold Rings.append
  split
  · exact update_of_ne hr ..
  · split <;> rfl

/-! ## Removing -/

section Removing

variable {p n u v : ν} {a b : List ν}

theorem remove_eq (hp : w.prev m = some p) (hn : w.next m = some n) (hne : n ≠ m) :
    w.remove r m =
      { prev := Function.update (Function.update w.prev n (some p)) m none
        next := Function.update (Function.update w.next p (some n)) m none
        anchor := if w.anchor r = some m then Function.update w.anchor r (some n) else w.anchor } := by
  simp only [Rings.remove, hp, hn, if_neg hne]

/-- Two records that follow each other, and of which neither loses its link to the record that
goes. -/
theorem remove_old (hp : w.prev m = some p) (hn : w.next m = some n) (hne : n ≠ m) (hup : u ≠ p)
    (hvn : v ≠ n) (hum : u ≠ m)
    (hvm : v ≠ m) (h : w.Adjacent u v) : (w.remove r m).Adjacent u v := by
  rw [remove_eq hp hn hne]
  refine ⟨?_, ?_⟩
  · simpa only [update_of_ne hum, update_of_ne hup] using h.1
  · simpa only [update_of_ne hvm, update_of_ne hvn] using h.2

theorem remove_new (hp : w.prev m = some p) (hn : w.next m = some n) (hne : n ≠ m) (hpm : p ≠ m) :
    (w.remove r m).Adjacent p n := by
  rw [remove_eq hp hn hne]
  refine ⟨?_, ?_⟩
  · simp only [update_of_ne hpm, update_self]
  · simp only [update_of_ne hne, update_self]

theorem Holds.remove_head (h : w.Holds r (m :: n :: b)) (hnodup : (m :: n :: b).Nodup) :
    (w.remove r m).Holds r (n :: b) := by
  have hm : m ∉ n :: b := (nodup_cons.mp hnodup).1
  have htail : (n :: b).Nodup := (nodup_cons.mp hnodup).2
  rcases isChain_cons_cons.mp h.chain with ⟨hmn, hchain⟩
  have hlast : (n :: b).getLast (cons_ne_nil n b) ∈ (n :: b).getLast? := List.getLast?_eq_some_getLast _
  have hmem := getLast_mem (cons_ne_nil n b)
  generalize (n :: b).getLast (cons_ne_nil n b) = p at hlast hmem
  have hp : w.prev m = some p := (h.closed p (by rwa [List.getLast?_cons_cons]) m rfl).2
  have hne : n ≠ m := fun heq => hm (heq ▸ mem_cons_self)
  have hpm : p ≠ m := fun heq => hm (heq ▸ hmem)
  refine ⟨?_, chain_imp hchain fun u hu v hv huv => ?_, fun y hy x hx => ?_⟩
  · rw [remove_eq hp hmn.1 hne]
    dsimp only
    have hanchor : w.anchor r = some m := h.anchor
    rw [if_pos hanchor]
    exact update_self ..
  · refine remove_old hp hmn.1 hne (ne_getLast htail hu hlast) (ne_head htail hv rfl) ?_ ?_ huv
    · exact fun heq => hm (heq ▸ (dropLast_sublist _).subset hu)
    · exact fun heq => hm (heq ▸ mem_of_mem_tail hv)
  · cases hx
    rw [Option.some.inj (hy.symm.trans hlast)]
    exact remove_new hp hmn.1 hne hpm

theorem Holds.remove_behind (h : w.Holds r (a ++ m :: b)) (hnodup : (a ++ m :: b).Nodup) (ha : a ≠ []) :
    (w.remove r m).Holds r (a ++ b) := by
  have hparts := nodup_append.mp hnodup
  have hm : m ∉ b := (nodup_cons.mp hparts.2.1).1
  have hma : m ∉ a := fun hmem => hparts.2.2 m hmem m mem_cons_self rfl
  have hb : b.Nodup := (nodup_cons.mp hparts.2.1).2
  have hab : ∀ x ∈ a, ∀ y ∈ b, x ≠ y := fun x hx y hy => hparts.2.2 x hx y (mem_cons_of_mem m hy)
  rcases isChain_append.mp h.chain with ⟨hchain, hchain', hseam⟩
  have hlast : a.getLast ha ∈ a.getLast? := List.getLast?_eq_some_getLast ha
  have hlmem := getLast_mem ha
  generalize a.getLast ha = p at hlast hlmem
  have hhead : a.head ha ∈ a.head? := List.head?_eq_some_head ha
  have hhmem := head_mem ha
  generalize a.head ha = x at hhead hhmem
  have hp : w.prev m = some p := (hseam p hlast m rfl).2
  have hpm : p ≠ m := fun heq => hma (heq ▸ hlmem)
  have hxm : x ≠ m := fun heq => hma (heq ▸ hhmem)
  have hfirst : (a ++ m :: b).head? = some x := by
    rw [List.head?_append, hhead]
    rfl
  have hanchor : w.anchor r ≠ some m := by
    rw [h.anchor, hfirst]
    exact fun heq => hxm (Option.some.inj heq)
  have hfirst' : (a ++ b).head? = some x := by
    rw [List.head?_append, hhead]
    rfl
  -- what follows it is the next record, or the first one
  have hn : ∃ n, w.next m = some n ∧ n ≠ m ∧ (∀ v ∈ a.tail, v ≠ n) ∧ (∀ v ∈ b.tail, v ≠ n) ∧
      (b = [] → n = x) ∧ ∀ y ∈ b.head?, y = n := by
    cases b with
    | nil =>
      have hclosed := h.closed m (by simp) x hfirst
      exact ⟨x, hclosed.1, hxm, fun v hv => ne_head hparts.1 hv hhead, nofun, fun _ => rfl, nofun⟩
    | cons n b =>
      have hmn := (isChain_cons_cons.mp hchain').1
      refine ⟨n, hmn.1, fun heq => hm (heq ▸ mem_cons_self), ?_, fun v hv => ne_head hb hv rfl, nofun, ?_⟩
      · exact fun v hv => hab v (mem_of_mem_tail hv) n mem_cons_self
      · intro y hy
        cases hy
        rfl
  rcases hn with ⟨n, hn, hne, hna, hnb, hnil, hcons⟩
  refine ⟨?_, isChain_append.mpr ⟨chain_imp hchain fun u hu v hv huv => ?_,
    chain_imp hchain'.tail fun u hu v hv huv => ?_, ?_⟩, ?_⟩
  · rw [remove_eq hp hn hne]
    dsimp only
    rw [if_neg hanchor, h.anchor, hfirst, hfirst']
  · refine remove_old hp hn hne (ne_getLast hparts.1 hu hlast) (hna v hv) ?_ ?_ huv
    · exact fun heq => hma (heq ▸ (dropLast_sublist _).subset hu)
    · exact fun heq => hma (heq ▸ mem_of_mem_tail hv)
  · have hub := (dropLast_sublist _).subset hu
    refine remove_old hp hn hne (hab p hlmem u hub).symm (hnb v hv) ?_ ?_ huv
    · exact fun heq => hm (heq ▸ hub)
    · exact fun heq => hm (heq ▸ mem_of_mem_tail hv)
  · intro u hu v hv
    rw [Option.some.inj (hu.symm.trans hlast), hcons v hv]
    exact remove_new hp hn hne hpm
  · intro y hy x' hx'
    cases hx'.symm.trans hfirst'
    cases hb' : b.getLast? with
    | none =>
      cases List.getLast?_eq_none_iff.mp hb'
      rw [append_nil] at hy
      rw [Option.some.inj (hy.symm.trans hlast), ← hnil rfl]
      exact remove_new hp hn hne hpm
    | some z =>
      have hz := mem_of_getLast? hb'
      have hyz : y = z := by
        rw [List.getLast?_append, hb'] at hy
        exact (Option.some.inj hy).symm
      subst hyz
      have hbne : b ≠ [] := ne_nil_of_mem hz
      have hold := h.closed y (by rw [List.getLast?_append, List.getLast?_cons, hb']; rfl) x hfirst
      refine remove_old hp hn hne (hab p hlmem y hz).symm ?_ (fun heq => hm (heq ▸ hz)) hxm hold
      cases b with
      | nil => exact absurd rfl hbne
      | cons n' b =>
        rw [← hcons n' rfl]
        exact hab x hhmem n' mem_cons_self

theorem Holds.remove_single (h : w.Holds r [m]) : (w.remove r m).Holds r [] := by
  have hself := h.closed m rfl m rfl
  have hanchor : w.anchor r = some m := h.anchor
  simp only [Rings.remove, hself.1, hself.2, if_true, hanchor]
  exact ⟨update_self .., .nil, nofun⟩

theorem Holds.remove (h : w.Holds r l) (hnodup : l.Nodup) (hm : m ∈ l) :
    (w.remove r m).Holds r (l.erase m) := by
  rcases append_of_mem hm with ⟨a, b, rfl⟩
  have hma : m ∉ a := fun hmem => (nodup_append.mp hnodup).2.2 m hmem m mem_cons_self rfl
  rw [erase_append_right _ hma, erase_cons_head]
  cases a with
  | nil =>
    cases b with
    | nil => exact h.remove_single
    | cons n b => exact h.remove_head hnodup
  | cons x a => exact h.remove_behind hnodup (cons_ne_nil x a)

omit [DecidableEq ρ] [DecidableEq ν] in
theorem Holds.links (h : w.Holds r l) (hm : m ∈ l) : ∃ p ∈ l, ∃ n ∈ l, w.prev m = some p ∧
    w.next m = some n := by
  rcases append_of_mem hm with ⟨a, b, rfl⟩
  rcases isChain_append.mp h.chain with ⟨_, hchain, hseam⟩
  have hprev : ∃ p ∈ a ++ m :: b, w.prev m = some p := by
    cases hlast : a.getLast? with
    | none =>
      cases List.getLast?_eq_none_iff.mp hlast
      have hlast' := List.getLast?_eq_some_getLast (cons_ne_nil m b)
      exact ⟨_, mem_of_getLast? hlast', (h.closed _ hlast' m rfl).2⟩
    | some p => exact ⟨p, mem_append_left _ (mem_of_getLast? hlast), (hseam p hlast m rfl).2⟩
  have hnext : ∃ n ∈ a ++ m :: b, w.next m = some n := by
    cases b with
    | nil =>
      have hne : a ++ [m] ≠ [] := by simp
      have hhead := List.head?_eq_some_head hne
      exact ⟨_, head_mem hne, (h.closed m (by simp) _ hhead).1⟩
    | cons n b => exact ⟨n, by simp, (isChain_cons_cons.mp hchain).1.1⟩
  rcases hprev with ⟨p, hp, hprev⟩
  rcases hnext with ⟨n, hn, hnext⟩
  exact ⟨p, hp, n, hn, hprev, hnext⟩

theorem Holds.remove_other (h : w.Holds r l) (hm : m ∈ l) {x : ν} (hx : x ∉ l) :
    (w.remove r m).next x = w.next x ∧ (w.remove r m).prev x = w.prev x := by
  rcases h.links hm with ⟨p, hp, n, hn, hprev, hnext⟩
  have hxm : x ≠ m := fun heq => hx (heq ▸ hm)
  have hxp : x ≠ p := fun heq => hx (heq ▸ hp)
  have hxn : x ≠ n := fun heq => hx (heq ▸ hn)
  simp only [Rings.remove, hprev, hnext]
  split
  · simp only [update_of_ne hxm, and_self]
  · simp only [update_of_ne hxm, update_of_ne hxp, update_of_ne hxn, and_self]

theorem remove_anchor {r' : ρ} (hr : r' ≠ r) : (w.remove r m).anchor r' = w.anchor r' := by
  unfold Rings.remove
  split
  · split
    all_goals
      dsimp only
      split
      · exact update_of_ne hr ..
      · rfl
  · rfl

theorem Holds.remove_self (h : w.Holds r l) (hm : m ∈ l) : (w.remove r m).prev m = none ∧
    (w.remove r m).next m = none := by
  rcases h.links hm with ⟨p, _, n, _, hprev, hnext⟩
  simp only [Rings.remove, hprev, hnext]
  split
  · exact ⟨update_self .., update_self ..⟩
  · exact ⟨update_self .., update_self ..⟩

end Removing

/-! ## All rings -/

namespace Represents

variable {lists : ρ → List ν}

omit [DecidableEq ρ] [DecidableEq ν] in
theorem empty : Represents ({} : Rings ρ ν) fun _ => [] :=
  ⟨fun _ => ⟨rfl, .nil, nofun⟩, fun _ => nodup_nil, nofun, fun _ _ => ⟨rfl, rfl⟩⟩

theorem update (h : w.Represents lists) {l : List ν} (hl : w'.Holds r l) (hnodup : l.Nodup)
    (hanchor : ∀ r', r' ≠ r → w'.anchor r' = w.anchor r')
    (hlinks : ∀ x, x ∉ l → x ∉ lists r → w'.next x = w.next x ∧ w'.prev x = w.prev x)
    (hnew : ∀ x ∈ l, x ∉ lists r → ∀ r', x ∉ lists r')
    (hfreed : ∀ x ∈ lists r, x ∉ l → w'.prev x = none ∧ w'.next x = none) :
    w'.Represents (Function.update lists r l) := by
  -- a record of another ring is neither in the old list nor in the new one
  have hother : ∀ r', r' ≠ r → ∀ x ∈ lists r', x ∉ l ∧ x ∉ lists r := by
    intro r' hr x hx
    have hold : x ∉ lists r := fun hmem => hr (h.apart r' r x hx hmem)
    exact ⟨fun hmem => hnew x hmem hold r' hx, hold⟩
  refine ⟨fun r' => ?_, fun r' => ?_, fun r₁ r₂ x h₁ h₂ => ?_, fun x hx => ?_⟩
  · by_cases hr : r' = r
    · subst hr
      rwa [update_self]
    · rw [update_of_ne hr]
      exact (h.holds r').congr (hanchor r' hr) fun x hx =>
        hlinks x (hother r' hr x hx).1 (hother r' hr x hx).2
  · by_cases hr : r' = r
    · subst hr
      rwa [update_self]
    · rw [update_of_ne hr]
      exact h.nodup r'
  · by_cases hr₁ : r₁ = r <;> by_cases hr₂ : r₂ = r
    · rw [hr₁, hr₂]
    · subst hr₁
      rw [update_self] at h₁
      rw [update_of_ne hr₂] at h₂
      exact absurd h₁ (hother r₂ hr₂ x h₂).1
    · subst hr₂
      rw [update_self] at h₂
      rw [update_of_ne hr₁] at h₁
      exact absurd h₂ (hother r₁ hr₁ x h₁).1
    · rw [update_of_ne hr₁] at h₁
      rw [update_of_ne hr₂] at h₂
      exact h.apart r₁ r₂ x h₁ h₂
  · have hxl : x ∉ l := by
      have hxr := hx r
      rwa [update_self] at hxr
    by_cases hxr : x ∈ lists r
    · exact hfreed x hxr hxl
    · have hfree := h.free x fun r' => by
        by_cases hr : r' = r
        · exact hr ▸ hxr
        · have hxr' := hx r'
          rwa [update_of_ne hr] at hxr'
      have hsame := hlinks x hxl hxr
      exact ⟨hsame.2.trans hfree.1, hsame.1.trans hfree.2⟩

theorem append (h : w.Represents lists) (hm : ∀ r', m ∉ lists r') :
    (w.append r m).Represents (Function.update lists r (lists r ++ [m])) := by
  refine h.update ((h.holds r).append (h.nodup r) (hm r)) ?_ (fun _ => append_anchor) ?_ ?_ ?_
  · refine nodup_append.mpr ⟨h.nodup r, nodup_singleton m, fun x hx y hy heq => ?_⟩
    rw [heq, mem_singleton.mp hy] at hx
    exact hm r hx
  · intro x hx hxr
    have hxm : x ≠ m := fun heq => hx (mem_append_right _ (mem_singleton.mpr heq))
    exact (h.holds r).append_other hxm hxr
  · intro x hx hxr
    rcases mem_append.mp hx with hx | hx
    · exact absurd hx hxr
    · cases mem_singleton.mp hx
      exact hm
  · intro x hx hxl
    exact absurd (mem_append_left _ hx) hxl

theorem remove (h : w.Represents lists) (hm : m ∈ lists r) :
    (w.remove r m).Represents (Function.update lists r ((lists r).erase m)) := by
  refine h.update ((h.holds r).remove (h.nodup r) hm) ((h.nodup r).erase m)
    (fun _ => remove_anchor) ?_ ?_ ?_
  · intro x _ hxr
    exact (h.holds r).remove_other hm hxr
  · intro x hx hxr
    exact absurd (mem_of_mem_erase hx) hxr
  · intro x hx hxl
    have hxm : x = m := by
      by_contra hne
      exact hxl ((mem_erase_of_ne hne).mpr hx)
    subst hxm
    exact (h.holds r).remove_self hm

theorem remove_free (h : w.Represents lists) (hm : ∀ r', m ∉ lists r') : w.remove r m = w := by
  unfold Rings.remove
  rw [(h.free m hm).1]

theorem pop (h : w.Represents lists) (r : ρ) :
    (w.pop r).1 = (lists r).head? ∧ (w.pop r).2.Represents (Function.update lists r (lists r).tail) := by
  have hanchor := (h.holds r).anchor
  unfold Rings.pop
  cases hl : lists r with
  | nil =>
    rw [hanchor, hl]
    refine ⟨rfl, ?_⟩
    have hsame : Function.update lists r [] = lists := by
      rw [← hl]
      exact Function.update_eq_self r lists
    rw [tail_nil, hsame]
    exact h
  | cons x l =>
    rw [hanchor, hl]
    refine ⟨rfl, ?_⟩
    have hremoved := h.remove (r := r) (m := x) (hl ▸ mem_cons_self)
    rwa [hl, erase_cons_head] at hremoved

end Represents

/-! ## Sequences of operations -/

/-- A call of one of the helpers. -/
inductive Op (ρ ν : Type*)
  | append (r : ρ) (m : ν)
  | remove (r : ρ) (m : ν)
  | pop (r : ρ)
  deriving DecidableEq, Repr

/-- What it returns, if it is a pop, and leaves. -/
def call (w : Rings ρ ν) : Op ρ ν → Option ν × Rings ρ ν
  | .append r m => (none, w.append r m)
  | .remove r m => (none, w.remove r m)
  | .pop r => w.pop r

/-- The same operation on lists. -/
def callLists (lists : ρ → List ν) : Op ρ ν → Option ν × (ρ → List ν)
  | .append r m => (none, Function.update lists r (lists r ++ [m]))
  | .remove r m => (none, Function.update lists r ((lists r).erase m))
  | .pop r => ((lists r).head?, Function.update lists r (lists r).tail)

/-- A record is appended when it is free, and removed from the ring in which it is, if it is in
one. -/
def Legal (lists : ρ → List ν) : Op ρ ν → Prop
  | .append _ m => ∀ r', m ∉ lists r'
  | .remove r m => ∀ r', m ∈ lists r' → r' = r
  | .pop _ => True

def calls (w : Rings ρ ν) : List (Op ρ ν) → List (Option ν) × Rings ρ ν
  | [] => ([], w)
  | op :: ops =>
    let r := call w op
    let rest := calls r.2 ops
    (r.1 :: rest.1, rest.2)

def callsLists (lists : ρ → List ν) : List (Op ρ ν) → List (Option ν) × (ρ → List ν)
  | [] => ([], lists)
  | op :: ops =>
    let r := callLists lists op
    let rest := callsLists r.2 ops
    (r.1 :: rest.1, rest.2)

def AllLegal (lists : ρ → List ν) : List (Op ρ ν) → Prop
  | [] => True
  | op :: ops => Legal lists op ∧ AllLegal (callLists lists op).2 ops

theorem Represents.call {lists : ρ → List ν} (h : w.Represents lists) {op : Op ρ ν} (hop : Legal lists op) :
    (Rings.call w op).1 = (callLists lists op).1 ∧
      (Rings.call w op).2.Represents (callLists lists op).2 := by
  cases op with
  | append r m => exact ⟨rfl, h.append hop⟩
  | remove r m =>
    refine ⟨rfl, ?_⟩
    by_cases hm : m ∈ lists r
    · exact h.remove hm
    · have hfree : ∀ r', m ∉ lists r' := fun r' hmem => hm (hop r' hmem ▸ hmem)
      have hsame : Function.update lists r ((lists r).erase m) = lists := by
        rw [erase_of_not_mem hm, Function.update_eq_self]
      simp only [Rings.call, callLists, hsame, h.remove_free hfree]
      exact h
  | pop r => exact h.pop r

theorem Represents.calls {lists : ρ → List ν} (h : w.Represents lists) {ops : List (Op ρ ν)}
    (hops : AllLegal lists ops) :
    (Rings.calls w ops).1 = (callsLists lists ops).1 ∧
      (Rings.calls w ops).2.Represents (callsLists lists ops).2 := by
  induction ops generalizing w lists with
  | nil => exact ⟨rfl, h⟩
  | cons op ops ih =>
    rcases h.call hops.1 with ⟨hout, hnext⟩
    rcases ih hnext hops.2 with ⟨houts, hlast⟩
    refine ⟨?_, hlast⟩
    simp only [Rings.calls, callsLists, hout, houts]

end Rings

end Pytealet.Tealet.ThreadRing
