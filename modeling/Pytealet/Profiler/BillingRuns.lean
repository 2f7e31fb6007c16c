import Mathlib.Algebra.BigOperators.Group.List.Basic
import Mathlib.Algebra.Order.Ring.Int
import Pytealet.Profiler.Billing
import Pytealet.Profiler.Separation

/-!
# BillingRuns — what a session bills

A session runs from `enable` to `disable` in one thread, with any number of tealets.  The ledger
says what ought to be billed: until the next event time goes to the frames of the tealet that runs,
and to no other.

Throughout a session the value of the current stack is what the ledger has for the running tealet,
and every other stack has stood still since it was paused.  `disable` flushes them all as if they
were running, so that a tealet that is switched out with open frames is billed for the time since
then.
-/

namespace Pytealet.Profiler

open Lib Lib.Transition List
open Function (update update_eq_self update_of_ne update_self)

variable {κ φ : Type*}

/-! ## The ledger -/

structure Ledger (κ φ : Type*) where
  clock : Int := 0
  running : Tealet
  fold : Bool
  frames : Tealet → List κ := fun _ => []
  family : Tealet → Option φ := fun _ => none
  account : Tealet → κ → Measure → Int := fun _ _ _ => 0
  /-- tealets that have exited and gone into their families -/
  exited : List Tealet := []

inductive Event (κ : Type*)
  | enter (now : Int) (key : κ)
  | leave (now : Int) (key : κ)
  | switch (now : Int) (target : Nat) (exits : Bool)
  | setFold (on : Bool)
  deriving DecidableEq, Repr

def Event.action (t : Nat) : Event κ → Action κ
  | .enter now key => .enter t now key
  | .leave now key => .leave t now key
  | .switch now target exits => .switch t now target exits
  | .setFold on => .setFold on

section Keys

variable [DecidableEq κ] [DecidableEq φ]

namespace Ledger

/-- Time goes to the tealet that runs. -/
def pass (now : Int) (L : Ledger κ φ) : Ledger κ φ :=
  { L with
    clock := now
    account := update L.account L.running fun k m =>
      L.account L.running k m + share (L.frames L.running) k m * (now - L.clock) }

def enter (family : κ → Option φ) (key : κ) (L : Ledger κ φ) : Ledger κ φ :=
  { L with
    frames := update L.frames L.running (key :: L.frames L.running)
    family := update L.family L.running ((L.family L.running).or (family key))
    account := update L.account L.running fun k m =>
      L.account L.running k m + if k = key ∧ m = .calls then 1 else 0 }

def leave (L : Ledger κ φ) : Ledger κ φ :=
  { L with frames := update L.frames L.running (L.frames L.running).tail }

/-- The frames of the running tealet end with it. -/
def unwind (L : Ledger κ φ) : Ledger κ φ :=
  { L with frames := update L.frames L.running [] }

def exit (L : Ledger κ φ) : Ledger κ φ :=
  { L.unwind with exited := if L.fold then L.running :: L.exited else L.exited }

def next (family : κ → Option φ) (t : Nat) (L : Ledger κ φ) : Event κ → Ledger κ φ
  | .enter now key => (L.pass now).enter family key
  | .leave now _ => (L.pass now).leave
  | .switch now target exits =>
    { (if exits then (L.pass now).exit else L.pass now) with running := ⟨t, target⟩ }
  | .setFold on => { L with fold := on }

/-- A frame that ends is the innermost one, or has been entered before the session. -/
def Nested (L : Ledger κ φ) : Event κ → Prop
  | .leave _ key => L.frames L.running = [] ∨ (L.frames L.running).head? = some key
  | _ => True

instance (L : Ledger κ φ) (e : Event κ) : Decidable (L.Nested e) := by
  unfold Nested
  split <;> infer_instance

end Ledger

/-! ## Sessions -/

/-- The profiler and the ledger see the same events in thread `t`. -/
def session (family : κ → Option φ) (t : Nat) (c : State κ φ × Ledger κ φ) (e : Event κ) :
    Option (State κ φ × Ledger κ φ) :=
  if c.2.Nested e then
    match step family c.1 (e.action t) with
    | some s' => some (s', c.2.next family t e)
    | none => none
  else none

/-- A new profiler that has been enabled. -/
def opened (t : Nat) (foldOnExit slice : Bool) : State κ φ × Ledger κ φ :=
  ((init foldOnExit).enable t slice, { running := ⟨t, 0⟩, fold := foldOnExit })

/-- The entries have what the ledger says: those of every stack what there is for its tealet, and
those of every family what there is for the tealets that have gone into it. -/
structure Billed (s : State κ φ) (L : Ledger κ φ) : Prop where
  stackList : ∀ st ∈ s.stackList, ∀ (k : κ) (m : Measure), billed (st.entries k) m = L.account st.owner k m
  folded : ∀ (f : Option φ) (k : κ) (m : Measure), billed ((s.folded f).entries k) m =
    ((L.exited.filter fun a => L.family a = f).map fun a => L.account a k m).sum
  kept : ∀ (a : Tealet) (k : κ) (m : Measure), L.account a k m ≠ 0 → a ∈ L.exited ∨
    ∃ st ∈ s.stackList, st.owner = a

/-- The clock has not moved since a stack with open frames was paused. -/
def Settled (s : State κ φ) (t : Nat) (now : Int) : Prop :=
  ∀ st ∈ s.stackList, s.slots t ≠ some st.id → ∀ c ∈ st.ctx, c.t0 = now

instance (s : State κ φ) (t : Nat) (now : Int) : Decidable (Settled s t now) := by
  unfold Settled
  infer_instance

/-! ## The invariant -/

/-- The frames of a stack are those of its tealet. -/
structure Sheet (L : Ledger κ φ) (st : Stack κ φ) : Prop where
  keys : keys st.ctx = L.frames st.owner
  family : st.family = L.family st.owner
  levelled : st.Levelled

/-- A stack that stands still has been paused at some time, when its value was what the ledger
has. -/
def Rested (L : Ledger κ φ) (st : Stack κ φ) : Prop :=
  ∃ past : Int, (∀ c ∈ st.ctx, c.t0 = past) ∧ ∀ (k : κ) (m : Measure),
    st.value past k m = L.account st.owner k m

/-- Stacks and tealets, whoever runs. -/
structure Books (s : State κ φ) (L : Ledger κ φ) : Prop where
  fresh : ∀ st ∈ s.stackList, st.id < s.nextId
  ids : ∀ st ∈ s.stackList, ∀ st' ∈ s.stackList, st.id = st'.id → st = st'
  owners : ∀ st ∈ s.stackList, ∀ st' ∈ s.stackList, st.owner = st'.owner → st = st'
  bound : ∀ p ∈ s.byTealet, ∃ st ∈ s.stackList, st.id = p.2 ∧ st.owner = p.1
  fold : s.foldOnExit = L.fold
  sheet : ∀ st ∈ s.stackList, Sheet L st
  blank : ∀ a, a ∉ L.exited → (∀ st ∈ s.stackList, st.owner ≠ a) →
    L.frames a = [] ∧ L.family a = none ∧ ∀ (k : κ) (m : Measure), L.account a k m = 0
  exited : ∀ a ∈ L.exited, ∀ st ∈ s.stackList, st.owner ≠ a
  folded : ∀ (f : Option φ) (k : κ) (m : Measure), billed ((s.folded f).entries k) m =
    ((L.exited.filter fun a => L.family a = f).map fun a => L.account a k m).sum

/-- Between two events the current stack runs and all the others stand still. -/
structure Kept (t : Nat) (s : State κ φ) (L : Ledger κ φ) : Prop extends Books s L where
  enabled : s.enabled = true
  current : s.current t = L.running
  dead : ∀ a ∈ L.exited, a ∈ s.dead
  slot : ∃ st ∈ s.stackList, s.slots t = some st.id ∧ st.owner = L.running
  found : ∀ st ∈ s.stackList, st.owner ≠ L.running → st.owner ∉ s.dead → (st.owner, st.id) ∈ s.byTealet
  active : s.sliceGil = true → s.lastActive = s.slots t ∨ s.lastActive = none ∧ L.frames L.running = []
  runs : ∀ st ∈ s.stackList, st.owner = L.running → ∀ (k : κ) (m : Measure),
    st.value L.clock k m = L.account st.owner k m
  rests : ∀ st ∈ s.stackList, st.owner ≠ L.running → Rested L st

/-- During a switch all stacks stand still; `exits` says whether the origin has exited. -/
structure Halted (t : Nat) (exits : Bool) (s : State κ φ) (L : Ledger κ φ) : Prop extends Books s L where
  enabled : s.enabled = true
  current : s.current t = L.running
  dead : ∀ a ∈ L.exited, a ∈ s.dead ∨ exits = true ∧ a = L.running
  found : ∀ st ∈ s.stackList, (exits = true → st.owner ≠ L.running) → st.owner ∉ s.dead →
    (st.owner, st.id) ∈ s.byTealet
  rests : ∀ st ∈ s.stackList, Rested L st

variable {s s' : State κ φ} {L L' : Ledger κ φ} {t : Nat} {now : Int} {st : Stack κ φ}

/-! ## Ledgers that differ for one tealet -/

structure Agree (a : Tealet) (L L' : Ledger κ φ) : Prop where
  fold : L'.fold = L.fold
  exited : L'.exited = L.exited
  frames : ∀ b, b ≠ a → L'.frames b = L.frames b
  family : ∀ b, b ≠ a → L'.family b = L.family b
  account : ∀ b, b ≠ a → L'.account b = L.account b

omit [DecidableEq κ] [DecidableEq φ] in
theorem Agree.refl (a : Tealet) (L : Ledger κ φ) : Agree a L L :=
  ⟨rfl, rfl, fun _ _ => rfl, fun _ _ => rfl, fun _ _ => rfl⟩

omit [DecidableEq φ] in
theorem agree_pass (now : Int) (L : Ledger κ φ) : Agree L.running L (L.pass now) :=
  ⟨rfl, rfl, fun _ _ => rfl, fun _ _ => rfl, fun _ hb => update_of_ne hb _ _⟩

omit [DecidableEq φ] in
theorem agree_enter (family : κ → Option φ) (key : κ) (L : Ledger κ φ) :
    Agree L.running L (L.enter family key) :=
  ⟨rfl, rfl, fun _ hb => update_of_ne hb _ _, fun _ hb => update_of_ne hb _ _,
    fun _ hb => update_of_ne hb _ _⟩

omit [DecidableEq κ] [DecidableEq φ] in
theorem agree_leave (L : Ledger κ φ) : Agree L.running L L.leave :=
  ⟨rfl, rfl, fun _ hb => update_of_ne hb _ _, fun _ _ => rfl, fun _ _ => rfl⟩

omit [DecidableEq κ] [DecidableEq φ] in
theorem agree_unwind (L : Ledger κ φ) : Agree L.running L L.unwind :=
  ⟨rfl, rfl, fun _ hb => update_of_ne hb _ _, fun _ _ => rfl, fun _ _ => rfl⟩

omit [DecidableEq φ] in
theorem Sheet.agree {a : Tealet} (h : Sheet L st) (hagree : Agree a L L') (hne : st.owner ≠ a) :
    Sheet L' st :=
  ⟨h.keys.trans (hagree.frames _ hne).symm, h.family.trans (hagree.family _ hne).symm, h.levelled⟩

omit [DecidableEq φ] in
theorem Rested.agree {a : Tealet} (h : Rested L st) (hagree : Agree a L L') (hne : st.owner ≠ a) :
    Rested L' st := by
  rcases h with ⟨past, hpast, hvalue⟩
  refine ⟨past, hpast, fun k m => ?_⟩
  rw [hagree.account _ hne]
  exact hvalue k m

/-! ## One stack changes -/

variable {f : Stack κ φ → Stack κ φ}

omit [DecidableEq κ] [DecidableEq φ] in
theorem mem_onStack (hids : ∀ x ∈ s.stackList, ∀ y ∈ s.stackList, x.id = y.id → x = y)
    (hst : st ∈ s.stackList) {x : Stack κ φ} (hx : x ∈ (s.onStack st.id f).stackList) :
    x = f st ∨ x ∈ s.stackList ∧ x ≠ st := by
  rcases mem_map.1 hx with ⟨y, hy, rfl⟩
  by_cases hid : y.id = st.id
  · rw [if_pos hid, hids y hy st hst hid]
    exact .inl rfl
  · rw [if_neg hid]
    exact .inr ⟨hy, fun heq => hid (heq ▸ rfl)⟩

omit [DecidableEq κ] [DecidableEq φ] in
theorem mem_onStack_self (hst : st ∈ s.stackList) : f st ∈ (s.onStack st.id f).stackList :=
  mem_map.2 ⟨st, hst, if_pos rfl⟩

omit [DecidableEq κ] [DecidableEq φ] in
theorem mem_onStack_of_ne {x : Stack κ φ} (hx : x ∈ s.stackList) (hne : x.id ≠ st.id) :
    x ∈ (s.onStack st.id f).stackList :=
  mem_map.2 ⟨x, hx, if_neg hne⟩

omit [DecidableEq κ] [DecidableEq φ] in
theorem onStack_of_same {i : Nat} (h : ∀ x ∈ s.stackList, x.id = i → f x = x) :
    s.onStack i f = s := by
  have hmap : s.stackList.map (fun x => if x.id = i then f x else x) = s.stackList := by
    refine (map_congr_left fun x hx => ?_).trans (map_id _)
    split
    · rename_i hid
      exact h x hx hid
    · rfl
  unfold State.onStack
  rw [hmap]

theorem Books.onStack (h : Books s L) (hst : st ∈ s.stackList) (hid : (f st).id = st.id)
    (howner : (f st).owner = st.owner) (hagree : Agree st.owner L L') (hsheet : Sheet L' (f st)) :
    Books (s.onStack st.id f) L' := by
  have hcases : ∀ x ∈ (s.onStack st.id f).stackList, x = f st ∨ x ∈ s.stackList ∧ x ≠ st :=
    fun x hx => mem_onStack h.ids hst hx
  have hother : ∀ x ∈ s.stackList, x ≠ st → x.owner ≠ st.owner :=
    fun x hx hne heq => hne (h.owners x hx st hst heq)
  have hback : ∀ x ∈ s.stackList, ∃ y ∈ (s.onStack st.id f).stackList, y.id = x.id ∧ y.owner = x.owner := by
    intro x hx
    by_cases heq : x.id = st.id
    · rw [h.ids x hx st hst heq]
      exact ⟨f st, mem_onStack_self hst, hid, howner⟩
    · exact ⟨x, mem_onStack_of_ne hx heq, rfl, rfl⟩
  have hlive : ∀ a ∈ L.exited, a ≠ st.owner := fun a ha heq => h.exited a ha st hst heq.symm
  refine ⟨fun x hx => ?_, fun x hx y hy heq => ?_, fun x hx y hy heq => ?_, fun p hp => ?_,
    h.fold.trans hagree.fold.symm, fun x hx => ?_, fun a ha hnone => ?_,
    fun a ha x hx => ?_, fun g k m => ?_⟩
  · rcases hcases x hx with rfl | ⟨hx, -⟩
    · rw [hid]
      exact h.fresh st hst
    · exact h.fresh x hx
  · rcases hcases x hx with rfl | ⟨hx, hxne⟩
    · rcases hcases y hy with rfl | ⟨hy, hyne⟩
      · rfl
      · rw [hid] at heq
        exact absurd (h.ids st hst y hy heq).symm hyne
    · rcases hcases y hy with rfl | ⟨hy, -⟩
      · rw [hid] at heq
        exact absurd (h.ids x hx st hst heq) hxne
      · exact h.ids x hx y hy heq
  · rcases hcases x hx with rfl | ⟨hx, hxne⟩
    · rcases hcases y hy with rfl | ⟨hy, hyne⟩
      · rfl
      · rw [howner] at heq
        exact absurd heq.symm (hother y hy hyne)
    · rcases hcases y hy with rfl | ⟨hy, -⟩
      · rw [howner] at heq
        exact absurd heq (hother x hx hxne)
      · exact h.owners x hx y hy heq
  · rcases h.bound p hp with ⟨x, hx, hxid, hxowner⟩
    rcases hback x hx with ⟨y, hy, hyid, hyowner⟩
    exact ⟨y, hy, hyid.trans hxid, hyowner.trans hxowner⟩
  · rcases hcases x hx with rfl | ⟨hx, hne⟩
    · exact hsheet
    · exact (h.sheet x hx).agree hagree (hother x hx hne)
  · have hne : a ≠ st.owner := by
      intro heq
      exact hnone (f st) (mem_onStack_self hst) (howner.trans heq.symm)
    rw [hagree.frames a hne, hagree.family a hne, hagree.account a hne]
    refine h.blank a (hagree.exited ▸ ha) fun x hx heq => ?_
    rcases hback x hx with ⟨y, hy, -, hyowner⟩
    exact hnone y hy (hyowner.trans heq)
  · rw [hagree.exited] at ha
    rcases hcases x hx with rfl | ⟨hx, -⟩
    · rw [howner]
      exact (hlive a ha).symm
    · exact h.exited a ha x hx
  · show billed ((s.folded g).entries k) m = _
    rw [h.folded g k m, hagree.exited]
    have hfilter : L.exited.filter (fun a => decide (L'.family a = g)) =
        L.exited.filter fun a => decide (L.family a = g) :=
      filter_congr fun a ha => by rw [hagree.family a (hlive a ha)]
    rw [hfilter]
    refine congrArg List.sum (map_congr_left fun a ha => ?_)
    rw [hagree.account a (hlive a (mem_filter.1 ha).1)]

theorem Books.congr (h : Books s L) (hstacks : s'.stackList = s.stackList) (hby : s'.byTealet = s.byTealet)
    (hnext : s'.nextId = s.nextId) (hfold : s'.foldOnExit = s.foldOnExit) (hfolded : s'.folded = s.folded) :
    Books s' L := by
  refine ⟨?_, ?_, ?_, ?_, hfold.trans h.fold, ?_, ?_, ?_, ?_⟩
  · rw [hstacks, hnext]
    exact h.fresh
  · rw [hstacks]
    exact h.ids
  · rw [hstacks]
    exact h.owners
  · rw [hby, hstacks]
    exact h.bound
  · rw [hstacks]
    exact h.sheet
  · rw [hstacks]
    exact h.blank
  · rw [hstacks]
    exact h.exited
  · rw [hfolded]
    exact h.folded

/-! ## Time passes -/

theorem Kept.pass (h : Kept t s L) (now : Int) : Kept t s (L.pass now) := by
  have hagree := agree_pass now L
  rcases h.slot with ⟨cur, hcur, hslot, howner⟩
  have hsheet := h.sheet cur hcur
  have hbooks : Books (s.onStack cur.id fun x => x) (L.pass now) :=
    h.toBooks.onStack hcur rfl rfl (howner ▸ hagree) ⟨hsheet.keys, hsheet.family, hsheet.levelled⟩
  have hsame : s.onStack cur.id (fun x => x) = s := onStack_of_same fun _ _ _ => rfl
  rw [hsame] at hbooks
  refine ⟨hbooks, h.enabled, h.current, h.dead, h.slot, h.found, h.active, fun st hst hrun k m => ?_,
    fun st hst hne => (h.rests st hst hne).agree hagree hne⟩
  have hrun' : st.owner = L.running := hrun
  show st.value now k m = update L.account L.running _ st.owner k m
  rw [hrun', update_self, Stack.value_later L.clock now, h.runs st hst hrun', (h.sheet st hst).keys, hrun']

/-- The state in which the current stack is active. -/
def State.active (s : State κ φ) (t : Nat) : State κ φ :=
  { s with lastActive := if s.sliceGil then s.slots t else s.lastActive }

theorem Kept.gilHandoff (h : Kept t s L) {i : Nat} (hslot : s.slots t = some i) (now : Int) :
    s.gilHandoff now i = s.active t := by
  have hself : s.sliceGil = false ∨ s.lastActive = some i → s = s.active t := by
    intro hor
    unfold State.active
    rcases hor with hslice | hlast
    · rw [if_neg (by simp [hslice])]
    · rw [hslot, ← hlast, ite_self]
  unfold State.gilHandoff
  by_cases hor : s.sliceGil = false ∨ s.lastActive = some i
  · rw [if_pos hor]
    exact hself hor
  · rw [if_neg hor]
    rcases not_or.1 hor with ⟨hslice, hlast⟩
    have hslice' : s.sliceGil = true := by simpa using hslice
    rcases h.active hslice' with heq | ⟨hnone, hframes⟩
    · exact absurd (heq.trans hslot) hlast
    · have hsame : s.onStack i (Stack.resume now) = s := by
        refine onStack_of_same fun x hx hid => ?_
        rcases h.slot with ⟨cur, hcur, hcurslot, howner⟩
        have hxcur : x = cur :=
          h.ids x hx cur hcur (hid.trans (Option.some.inj (hslot.symm.trans hcurslot)))
        have hkeys := (h.sheet cur hcur).keys
        rw [howner, hframes] at hkeys
        have hctx : cur.ctx = [] := map_eq_nil_iff.1 hkeys
        rw [hxcur]
        unfold Stack.resume
        rw [hctx, map_nil, ← hctx]
      unfold State.active
      rw [hnone]
      dsimp only
      rw [hsame, if_pos hslice', hslot]

theorem Kept.activate (h : Kept t s L) : Kept t (s.active t) L :=
  ⟨h.toBooks.congr rfl rfl rfl rfl rfl, h.enabled, h.current, h.dead, h.slot, h.found,
    fun hslice => .inl (by
      have hslice' : s.sliceGil = true := hslice
      show (if s.sliceGil then s.slots t else s.lastActive) = s.slots t
      rw [if_pos hslice']), h.runs, h.rests⟩

/-! ## Calls -/

theorem Kept.onStack (h : Kept t s L) (hst : st ∈ s.stackList)
    (hslot : s.slots t = some st.id) (hid : (f st).id = st.id) (howner : (f st).owner = st.owner)
    (hagree : Agree L.running L L') (hrun : L'.running = L.running) (hsheet : Sheet L' (f st))
    (hvalue : ∀ k m, (f st).value L'.clock k m = L'.account st.owner k m) :
    Kept t ((s.active t).onStack st.id f) L' := by
  rcases h.slot with ⟨cur, hcur, hcurslot, hcurowner⟩
  have hstcur : st = cur := h.ids st hst cur hcur (Option.some.inj (hslot.symm.trans hcurslot))
  have hstowner : st.owner = L.running := hstcur ▸ hcurowner
  have hact := h.activate
  have hbooks : Books ((s.active t).onStack st.id f) L' :=
    hact.toBooks.onStack hst hid howner (hstowner ▸ hagree) hsheet
  have hcases : ∀ x ∈ ((s.active t).onStack st.id f).stackList, x = f st ∨ x ∈ s.stackList ∧ x ≠ st :=
    fun x hx => mem_onStack (s := s.active t) h.ids hst hx
  refine ⟨hbooks, h.enabled, h.current.trans hrun.symm, ?_,
    ⟨f st, mem_onStack_self (s := s.active t) hst, ?_, ?_⟩,
    fun x hx hne hlive => ?_, fun hslice => .inl ?_, fun x hx heq k m => ?_, fun x hx hne => ?_⟩
  · rw [hagree.exited]
    exact h.dead
  · rw [hid]
    exact hslot
  · rw [howner, hstowner, hrun]
  · rcases hcases x hx with rfl | ⟨hx, -⟩
    · rw [howner, hstowner, hrun] at hne
      exact absurd rfl hne
    · exact h.found x hx (hrun ▸ hne) hlive
  · have hslice' : s.sliceGil = true := hslice
    show (if s.sliceGil then s.slots t else s.lastActive) = s.slots t
    rw [if_pos hslice']
  · rcases hcases x hx with rfl | ⟨hx, hxne⟩
    · rw [howner]
      exact hvalue k m
    · exact absurd (h.owners x hx st hst (heq.trans (hrun.trans hstowner.symm))) hxne
  · rcases hcases x hx with rfl | ⟨hx, -⟩
    · rw [howner, hstowner, hrun] at hne
      exact absurd rfl hne
    · exact (h.rests x hx (hrun ▸ hne)).agree hagree (hrun ▸ hne)

theorem Kept.enterCall (h : Kept t s L) (family : κ → Option φ) (now : Int) (key : κ) :
    Kept t (s.enterCall family t now key) ((L.pass now).enter family key) := by
  have hpass := h.pass now
  rcases h.slot with ⟨cur, hcur, hslot, howner⟩
  have hsheet := hpass.sheet cur hcur
  have hensure : s.ensureCurrent t = (s, cur.id) := by
    unfold State.ensureCurrent
    rw [hslot]
  unfold State.enterCall
  rw [if_pos h.enabled, hensure]
  dsimp only
  rw [h.gilHandoff hslot]
  refine hpass.onStack hcur hslot rfl rfl (agree_enter family key _) rfl ⟨?_, ?_, ?_⟩ fun k m => ?_
  · show key :: keys cur.ctx = update (L.pass now).frames L.running _ cur.owner
    rw [howner, update_self, hsheet.keys, howner]
    rfl
  · show cur.family.or (family key) = update (L.pass now).family L.running _ cur.owner
    rw [howner, update_self, hsheet.family, howner]
    rfl
  · exact Stack.levelled_push hsheet.levelled family now _ key
  · show (cur.push family now _ key).value now k m = update (L.pass now).account L.running _ cur.owner k m
    rw [howner, update_self, Stack.value_push]
    refine congrArg (· + _) ?_
    exact (hpass.runs cur hcur howner k m).trans (by rw [howner]; rfl)

theorem Kept.leaveCall (h : Kept t s L) {now : Int} {key : κ} (hnested : L.Nested (.leave now key)) :
    Kept t (s.leaveCall t now key) (L.pass now).leave := by
  have hpass := h.pass now
  rcases h.slot with ⟨cur, hcur, hslot, howner⟩
  have hsheet := hpass.sheet cur hcur
  have hkeys : keys cur.ctx = L.frames L.running := by
    rw [hsheet.keys, howner]
    rfl
  rcases stack?_isSome (s := s) (mem_map_of_mem hcur) with ⟨x, hx, hfind, hid⟩
  have hxcur : x = cur := h.ids x hx cur hcur hid
  subst hxcur
  unfold State.leaveCall
  rw [if_pos h.enabled, hslot]
  dsimp only
  rw [hfind]
  dsimp only
  cases hctx : x.ctx with
  | nil =>
    -- the frame has been entered before the session
    rw [hctx, keys_nil] at hkeys
    have hleave : (L.pass now).leave = L.pass now := by
      have hframes : update L.frames L.running (L.frames L.running).tail = L.frames := by
        rw [← hkeys, tail_nil, hkeys, update_eq_self]
      show ({ L.pass now with frames := update L.frames L.running (L.frames L.running).tail } :
          Ledger κ φ) = _
      rw [hframes]
      rfl
    rw [hleave]
    simpa using hpass
  | cons c rest =>
    rw [if_neg (by simp), h.gilHandoff hslot]
    have hkey : key = c.key := by
      rw [hctx, keys_cons] at hkeys
      rcases hnested with hnil | hhead
      · rw [hnil] at hkeys
        cases hkeys
      · rw [← hkeys] at hhead
        exact (Option.some.inj hhead).symm
    subst hkey
    rcases Stack.family_pop now c.key x with ⟨hfamily, hpopowner, hpopid⟩
    refine hpass.onStack hx hslot hpopid hpopowner (agree_leave _) rfl ⟨?_, ?_, ?_⟩ fun k m => ?_
    · rw [Stack.keys_pop, hpopowner, howner]
      show _ = update L.frames L.running (L.frames L.running).tail L.running
      rw [update_self, hkeys]
    · rw [hfamily, hpopowner]
      exact hsheet.family
    · exact Stack.levelled_pop hsheet.levelled hctx now
    · rw [show (L.pass now).leave.clock = now from rfl, Stack.value_pop hsheet.levelled hctx]
      exact hpass.runs x hx howner k m

/-! ## Switches -/

theorem Kept.pause (h : Kept t s L) (hst : st ∈ s.stackList) (howner : st.owner = L.running) :
    Books (s.onStack st.id (Stack.pause L.clock)) L ∧
      ∀ x ∈ (s.onStack st.id (Stack.pause L.clock)).stackList, Rested L x := by
  have hsheet := h.sheet st hst
  have hkeys : keys (st.pause L.clock).ctx = keys st.ctx := keys_pause L.clock st.ctx
  have hlevelled : (st.pause L.clock).Levelled := by
    unfold Stack.Levelled
    rw [hkeys]
    exact hsheet.levelled
  refine ⟨h.toBooks.onStack hst rfl rfl (Agree.refl _ L) ⟨hkeys.trans hsheet.keys,
    hsheet.family, hlevelled⟩,
    fun x hx => ?_⟩
  · rcases mem_onStack h.ids hst hx with rfl | ⟨hx, hne⟩
    · refine ⟨L.clock, fun c hc => ?_, fun k m => ?_⟩
      · rcases mem_map.1 hc with ⟨c', -, rfl⟩
        rfl
      · rw [Stack.value_pause]
        exact h.runs st hst howner k m
    · exact h.rests x hx fun heq => hne (h.owners x hx st hst (heq.trans howner.symm))

omit [DecidableEq κ] [DecidableEq φ] in
theorem bound_bindTealet (hbound : ∀ p ∈ s.byTealet, ∃ x ∈ s.stackList, x.id = p.2 ∧ x.owner = p.1)
    (hst : st ∈ s.stackList) : ∀ p ∈ (s.bindTealet st.owner st.id).byTealet,
      ∃ x ∈ s.stackList, x.id = p.2 ∧ x.owner = p.1 := by
  intro p hp
  rcases mem_cons.1 hp with rfl | hp
  · exact ⟨st, hst, rfl, rfl⟩
  · exact hbound p (mem_filter.1 hp).1

theorem Books.withMap (h : Books s L) {by' : List (Tealet × Nat)}
    (hbound : ∀ p ∈ by', ∃ x ∈ s.stackList, x.id = p.2 ∧ x.owner = p.1) :
      Books { s with byTealet := by' } L :=
  ⟨h.fresh, h.ids, h.owners, hbound, h.fold, h.sheet, h.blank, h.exited, h.folded⟩

theorem Kept.leaveBound (h : Kept t s L) (hst : st ∈ s.stackList) (howner : st.owner = L.running) :
    Halted t false ((s.onStack st.id (Stack.pause L.clock)).bindTealet L.running st.id) L := by
  rcases h.pause hst howner with ⟨hbooks, hrests⟩
  have hpaused : st.pause L.clock ∈ (s.onStack st.id (Stack.pause L.clock)).stackList :=
    mem_onStack_self hst
  have hbind := bound_bindTealet hbooks.bound hpaused
  have hbound : ∀ p ∈ ((s.onStack st.id (Stack.pause L.clock)).bindTealet L.running st.id).byTealet,
      ∃ x ∈ (s.onStack st.id (Stack.pause L.clock)).stackList, x.id = p.2 ∧ x.owner = p.1 := by
    rw [← howner]
    exact hbind
  refine ⟨hbooks.withMap hbound, h.enabled, h.current, fun a ha => .inl (h.dead a ha),
    fun x hx _ hlive => ?_, hrests⟩
  rcases mem_onStack h.ids hst hx with rfl | ⟨hx, hne⟩
  · have hhead : ((st.pause L.clock).owner, (st.pause L.clock).id) = (L.running, st.id) :=
    Prod.ext howner rfl
    rw [hhead]
    exact mem_cons_self
  · have hxowner : x.owner ≠ L.running := fun heq => hne (h.owners x hx st hst (heq.trans howner.symm))
    exact mem_cons_of_mem _ (mem_filter.2 ⟨h.found x hx hxowner hlive, by simpa using hxowner⟩)

theorem Kept.unwind (h : Kept t s L) (hst : st ∈ s.stackList) (howner : st.owner = L.running) :
    Halted t true
      ((((s.onStack st.id (Stack.pause L.clock)).onStack st.id (Stack.flush L.clock))).unbindTealet
      L.running) L.unwind ∧
      (((st.pause L.clock).flush L.clock).owner = L.running ∧
        ((st.pause L.clock).flush L.clock).id = st.id ∧
        ((st.pause L.clock).flush L.clock).family = L.family L.running ∧
        ∀ k m, billed (((st.pause L.clock).flush L.clock).entries k) m = L.account L.running k m) := by
  rcases h.pause hst howner with ⟨hbooks, hrests⟩
  have hpaused : st.pause L.clock ∈ (s.onStack st.id (Stack.pause L.clock)).stackList :=
    mem_onStack_self hst
  have hsheet := hbooks.sheet _ hpaused
  rcases Stack.flush_spec hsheet.levelled L.clock with ⟨hnil, hlev, hentries, hfamily, hflowner, hflid⟩
  have howner' : ((st.pause L.clock).flush L.clock).owner = L.running := hflowner.trans howner
  have hbilled : ∀ k m, billed (((st.pause L.clock).flush L.clock).entries k) m =
      L.account L.running k m := by
    intro k m
    rw [hentries, Stack.value_pause, h.runs st hst howner, howner]
  have hfamily' : ((st.pause L.clock).flush L.clock).family = L.family L.running := by
    rw [hfamily, hsheet.family]
    exact congrArg L.family howner
  have hsheet' : Sheet L.unwind ((st.pause L.clock).flush L.clock) := by
    refine ⟨?_, ?_, hlev⟩
    · rw [hnil, howner']
      exact (update_self L.running ([] : List κ) L.frames).symm
    · rw [hfamily', howner']
      rfl
  have hflushed : Books ((s.onStack st.id (Stack.pause L.clock)).onStack (st.pause L.clock).id
      (Stack.flush L.clock)) L.unwind := hbooks.onStack hpaused hflid hflowner
        (howner ▸ agree_unwind L) hsheet'
  generalize hs₁ : s.onStack st.id (Stack.pause L.clock) = s₁ at hbooks hrests hpaused hflushed
  have hcases : ∀ x ∈ (s₁.onStack st.id (Stack.flush L.clock)).stackList,
      x = (st.pause L.clock).flush L.clock ∨ x ∈ s₁.stackList ∧ x ≠ st.pause L.clock :=
    fun x hx => mem_onStack hbooks.ids hpaused hx
  have hby : s₁.byTealet = s.byTealet ∧ s₁.enabled = s.enabled ∧ s₁.dead = s.dead ∧
      s₁.running = s.running := by
    subst hs₁
    exact ⟨rfl, rfl, rfl, rfl⟩
  have hbound : ∀ p ∈ ((s₁.onStack st.id (Stack.flush L.clock)).unbindTealet L.running).byTealet,
      ∃ x ∈ (s₁.onStack st.id (Stack.flush L.clock)).stackList, x.id = p.2 ∧ x.owner = p.1 :=
    fun p hp => hflushed.bound p (mem_filter.1 hp).1
  refine ⟨⟨hflushed.withMap hbound, hby.2.1.trans h.enabled, ?_, fun a ha => .inl ?_,
    fun x hx hne hlive => ?_,
    fun x hx => ?_⟩, howner', hflid, hfamily', hbilled⟩
  · have hcur : (⟨t, s₁.running t⟩ : Tealet) = ⟨t, s.running t⟩ := by rw [hby.2.2.2]
    exact hcur.trans h.current
  · show a ∈ s₁.dead
    rw [hby.2.2.1]
    exact h.dead a ha
  · have hxne : x.owner ≠ L.running := hne rfl
    rcases hcases x hx with rfl | ⟨hx, -⟩
    · exact absurd howner' hxne
    · subst hs₁
      rcases mem_onStack h.ids hst hx with rfl | ⟨hx, -⟩
      · exact absurd howner hxne
      · exact mem_filter.2 ⟨h.found x hx hxne hlive, by simpa using hxne⟩
  · rcases hcases x hx with rfl | ⟨hx, hxne⟩
    · refine ⟨0, fun c hc => ?_, fun k m => ?_⟩
      · rw [hnil] at hc
        cases hc
      · rw [Stack.value_of_ctx_nil hnil, hbilled, howner']
        rfl
    · have hxowner : x.owner ≠ L.running :=
        fun heq => hxne (hbooks.owners x hx _ hpaused (heq.trans howner.symm))
      exact (hrests x hx).agree (agree_unwind L) hxowner

theorem Halted.foldStack (h : Halted t true s L) (hst : st ∈ s.stackList) (howner : st.owner = L.running)
    (hslot : s.slots t = some st.id) (hgone : ∀ p ∈ s.byTealet, p.1 ≠ L.running)
    (hbilled : ∀ k m, billed (st.entries k) m = L.account L.running k m) :
    Halted t true (s.foldStack t st.id)
      { L with exited := if L.fold then L.running :: L.exited else L.exited } := by
  unfold State.foldStack
  by_cases hfold : L.fold = true
  swap
  · have hoff : s.foldOnExit = false := h.fold.trans (by simpa using hfold)
    rw [if_neg (by simp [hoff]), if_neg hfold]
    exact h
  · rw [if_pos (h.fold.trans hfold), if_pos hfold]
    have hfind : s.stack? st.id = some st := by
      rcases stack?_isSome (s := s) (mem_map_of_mem hst) with ⟨x, hx, hfind, hid⟩
      rw [hfind, h.ids x hx st hst hid]
    have hmerge : s.mergeStack st.id =
        { s with folded := update s.folded st.family ((s.folded st.family).add st) } := by
      unfold State.mergeStack
      rw [hfind]
    rw [hmerge]
    dsimp only
    rw [if_pos hslot]
    have hmem : ∀ x, x ∈ s.stackList.filter (fun y => decide (y.id ≠ st.id)) ↔
        x ∈ s.stackList ∧ x ≠ st := by
      intro x
      rw [mem_filter]
      refine and_congr_right fun hx => ?_
      rw [decide_eq_true_eq]
      exact not_congr ⟨fun heq => h.ids x hx st hst heq, fun heq => heq ▸ rfl⟩
    have hother : ∀ x ∈ s.stackList, x ≠ st → x.owner ≠ L.running :=
      fun x hx hne heq => hne (h.owners x hx st hst (heq.trans howner.symm))
    refine ⟨⟨fun x hx => h.fresh x ((hmem x).1 hx).1, fun x hx y hy =>
      h.ids x ((hmem x).1 hx).1 y ((hmem y).1 hy).1,
      fun x hx y hy => h.owners x ((hmem x).1 hx).1 y ((hmem y).1 hy).1, fun p hp => ?_, h.toBooks.fold,
      fun x hx => ?_, fun a ha hnone => ?_, fun a ha x hx => ?_, fun g k m => ?_⟩, h.enabled, h.current,
      fun a ha => ?_, fun x hx => h.found x ((hmem x).1 hx).1, fun x hx => h.rests x ((hmem x).1 hx).1⟩
    · rcases h.bound p hp with ⟨x, hx, hid, hx'⟩
      refine ⟨x, (hmem x).2 ⟨hx, fun heq => ?_⟩, hid, hx'⟩
      exact hgone p hp (hx'.symm.trans (heq ▸ howner))
    · have hsheet := h.sheet x ((hmem x).1 hx).1
      exact ⟨hsheet.keys, hsheet.family, hsheet.levelled⟩
    · rcases not_or.1 (mt mem_cons.2 ha) with ⟨hne, ha⟩
      refine h.blank a ha fun x hx heq => ?_
      by_cases hxst : x = st
      · exact hne (heq.symm.trans (hxst ▸ howner))
      · exact hnone x ((hmem x).2 ⟨hx, hxst⟩) heq
    · rcases (hmem x).1 hx with ⟨hx, hne⟩
      rcases mem_cons.1 ha with rfl | ha
      · exact hother x hx hne
      · exact h.exited a ha x hx
    · show billed ((update s.folded st.family ((s.folded st.family).add st) g).entries k) m =
        (((L.running :: L.exited).filter fun a => decide (L.family a = g)).map fun a => L.account a k m).sum
      have hfamily : st.family = L.family L.running := by
        rw [(h.sheet st hst).family, howner]
      by_cases hg : st.family = g
      · subst hg
        rw [update_self, billed_add, h.folded, hbilled, filter_cons_of_pos (by simp [hfamily]),
          map_cons, sum_cons, Int.add_comm]
      · rw [update_of_ne fun heq => hg heq.symm, h.folded,
          filter_cons_of_neg (by rw [← hfamily]; simpa using hg)]
    · rcases mem_cons.1 ha with rfl | ha
      · exact .inr ⟨rfl, rfl⟩
      · exact h.dead a ha

theorem Halted.ensureTealet {exits : Bool} (h : Halted t exits s L) {a : Tealet} (hlive : a ∉ s.dead)
    (hne : a ≠ L.running) : Halted t exits (s.ensureTealet a).1 L ∧
      ∃ x ∈ (s.ensureTealet a).1.stackList, x.id = (s.ensureTealet a).2 ∧ x.owner = a := by
  unfold State.ensureTealet
  split
  · rename_i i hl
    exact ⟨h, h.bound _ (mem_of_lookupTealet hl)⟩
  · rename_i hl
    have hnone := lookupTealet_eq_none hl
    have howner : ∀ x ∈ s.stackList, x.owner ≠ a := by
      intro x hx heq
      refine hnone _ (h.found x hx (fun _ => heq ▸ hne) (heq ▸ hlive)) heq
    have hexited : a ∉ L.exited := by
      intro ha
      rcases h.dead a ha with hdead | ⟨-, heq⟩
      · exact hlive hdead
      · exact hne heq
    rcases h.blank a hexited howner with ⟨hframes, hfamily, haccount⟩
    have hby : ∀ p ∈ ((s.newStack a).bindTealet a s.nextId).byTealet, p = (a, s.nextId) ∨
        p ∈ s.byTealet := by
      intro p hp
      rcases mem_cons.1 hp with rfl | hp
      · exact .inl rfl
      · exact .inr (mem_filter.1 hp).1
    refine ⟨⟨⟨fun x hx => ?_, fun x hx y hy heq => ?_, fun x hx y hy heq => ?_,
      fun p hp => ?_, h.toBooks.fold,
      fun x hx => ?_, fun b hb hnone' => ?_, fun b hb x hx => ?_, h.folded⟩, h.enabled, h.current, h.dead,
      fun x hx hx' hxlive => ?_, fun x hx => ?_⟩, ⟨_, mem_cons_self, rfl, rfl⟩⟩
    · show x.id < s.nextId + 1
      rcases mem_cons.1 hx with rfl | hx
      · exact Nat.lt_succ_self _
      · exact Nat.lt_succ_of_lt (h.fresh x hx)
    · rcases mem_cons.1 hx with rfl | hx
      · rcases mem_cons.1 hy with rfl | hy
        · rfl
        · exact absurd (h.fresh y hy) (heq ▸ lt_irrefl _)
      · rcases mem_cons.1 hy with rfl | hy
        · exact absurd (h.fresh x hx) (heq ▸ lt_irrefl _)
        · exact h.ids x hx y hy heq
    · rcases mem_cons.1 hx with rfl | hx
      · rcases mem_cons.1 hy with rfl | hy
        · rfl
        · exact absurd heq.symm (howner y hy)
      · rcases mem_cons.1 hy with rfl | hy
        · exact absurd heq (howner x hx)
        · exact h.owners x hx y hy heq
    · rcases hby p hp with rfl | hp
      · exact ⟨_, mem_cons_self, rfl, rfl⟩
      · rcases h.bound p hp with ⟨x, hx, hx'⟩
        exact ⟨x, mem_cons_of_mem _ hx, hx'⟩
    · rcases mem_cons.1 hx with rfl | hx
      · exact ⟨hframes.symm, hfamily.symm, fun k => not_mem_nil⟩
      · exact h.sheet x hx
    · exact h.blank b hb fun x hx => hnone' x (mem_cons_of_mem _ hx)
    · rcases mem_cons.1 hx with rfl | hx
      · intro heq
        have heq' : a = b := heq
        exact hexited (heq' ▸ hb)
      · exact h.exited b hb x hx
    · rcases mem_cons.1 hx with rfl | hx
      · exact mem_cons_self
      · exact mem_cons_of_mem _
          (mem_filter.2 ⟨h.found x hx hx' hxlive, by simpa using howner x hx⟩)
    · rcases mem_cons.1 hx with rfl | hx
      · refine ⟨0, fun c hc => absurd hc not_mem_nil, fun k m => ?_⟩
        rw [Stack.value_of_ctx_nil rfl, haccount]
        cases m <;> rfl
      · exact h.rests x hx

theorem Halted.switchTo {exits : Bool} {target : Nat} (h : Halted t exits s L)
    (hlive : (⟨t, target⟩ : Tealet) ∉ s.dead) (hne : (⟨t, target⟩ : Tealet) ≠ L.running) :
    Kept t ((s.switchTo t L.clock ⟨t, target⟩).go t target exits) { L with running := ⟨t, target⟩ } := by
  have hdead : (s.ensureTealet ⟨t, target⟩).1.dead = s.dead := by
    unfold State.ensureTealet
    split <;> rfl
  rcases h.ensureTealet hlive hne with ⟨h', x, hx, hid, howner⟩
  unfold State.switchTo
  dsimp only
  rw [← hid]
  generalize (s.ensureTealet ⟨t, target⟩).1 = s₁ at h' hx hdead ⊢
  have hsheet := h'.sheet x hx
  have hbooks : Books ((s₁.setSlot t (some x.id)).onStack x.id (Stack.resume L.clock))
      ({ L with running := ⟨t, target⟩ } : Ledger κ φ) := by
    have hkeys : keys (x.resume L.clock).ctx = keys x.ctx := keys_resume L.clock x.ctx
    have hlevelled : (x.resume L.clock).Levelled := by
      unfold Stack.Levelled
      rw [hkeys]
      exact hsheet.levelled
    have hset : Books (s₁.setSlot t (some x.id)) ({ L with running := ⟨t, target⟩ } : Ledger κ φ) :=
      ⟨h'.fresh, h'.ids, h'.owners, h'.bound, h'.toBooks.fold,
        fun y hy => ⟨(h'.sheet y hy).keys, (h'.sheet y hy).family, (h'.sheet y hy).levelled⟩,
        h'.blank, h'.exited,
        h'.folded⟩
    exact hset.onStack hx rfl rfl (Agree.refl _ _) ⟨hkeys.trans hsheet.keys, hsheet.family, hlevelled⟩
  have hcases : ∀ y ∈ ((s₁.setSlot t (some x.id)).onStack x.id (Stack.resume L.clock)).stackList,
      y = x.resume L.clock ∨ y ∈ s₁.stackList ∧ y ≠ x :=
    fun y hy => mem_onStack (s := s₁.setSlot t (some x.id)) h'.ids hx hy
  have hself : x.resume L.clock ∈ ((s₁.setSlot t (some x.id)).onStack x.id
      (Stack.resume L.clock)).stackList :=
    mem_onStack_self (s := s₁.setSlot t (some x.id)) hx
  have hslot : update s₁.slots t (some x.id) t = some x.id := update_self t _ _
  -- whether or not the timer is sliced, the rest of the state is the same
  have hkept : ∀ last : Option Nat, (s₁.sliceGil = true → last = some x.id) →
      Kept t ({ (s₁.setSlot t (some x.id)).onStack x.id (Stack.resume L.clock) with lastActive :=
        last }.go t target exits)
        ({ L with running := ⟨t, target⟩ } : Ledger κ φ) := by
    intro last hlast
    refine ⟨hbooks.congr rfl rfl rfl rfl rfl, h'.enabled, ?_, fun a ha => ?_, ⟨_, hself, hslot, howner⟩,
      fun y hy hyne hylive => ?_, fun hslice => .inl ((hlast hslice).trans hslot.symm),
      fun y hy hyowner k m => ?_,
      fun y hy hyne => ?_⟩
    · show (⟨t, update s₁.running t target t⟩ : Tealet) = ⟨t, target⟩
      rw [update_self]
    · show a ∈ (if exits then s₁.current t :: s₁.dead else s₁.dead)
      rcases h'.dead a ha with hmem | ⟨hex, heq⟩
      · split
        · exact mem_cons_of_mem _ hmem
        · exact hmem
      · rw [if_pos hex, heq, ← h'.current]
        exact mem_cons_self
    · have hylive' : y.owner ∉ (if exits then s₁.current t :: s₁.dead else s₁.dead) := hylive
      rcases hcases y hy with rfl | ⟨hy, -⟩
      · exact absurd howner hyne
      · refine h'.found y hy (fun hex heq => ?_) fun hmem => ?_
        · rw [if_pos hex, h'.current, heq] at hylive'
          exact hylive' mem_cons_self
        · refine hylive' ?_
          split
          · exact mem_cons_of_mem _ hmem
          · exact hmem
    · rcases hcases y hy with rfl | ⟨hy, hyx⟩
      · rcases h'.rests x hx with ⟨past, hpast, hvalue⟩
        rw [show ({ L with running := ⟨t, target⟩ } : Ledger κ φ).clock = L.clock from rfl,
          Stack.value_resume hpast]
        exact hvalue k m
      · exact absurd (h'.owners y hy x hx (hyowner.trans howner.symm)) hyx
    · rcases hcases y hy with rfl | ⟨hy, -⟩
      · exact absurd howner hyne
      · exact h'.rests y hy
  split
  · exact hkept _ fun _ => rfl
  · rename_i hslice
    exact hkept _ fun hslice' => absurd hslice' hslice

theorem Kept.traceCb {exits : Bool} {target : Nat} (h : Kept t s L) (now : Int) (hne : target ≠ s.running t)
    (hlive : (⟨t, target⟩ : Tealet) ∉ s.dead) :
    Kept t ((s.traceCb t now ⟨t, target⟩ exits).go t target exits)
      (L.next (fun _ : κ => (none : Option φ)) t
      (.switch now target exits)) := by
  have hact := (h.pass now).activate
  rcases h.slot with ⟨cur, hcur, hslot, howner⟩
  have hensure : s.ensureCurrent t = (s, cur.id) := by
    unfold State.ensureCurrent
    rw [hslot]
  have htarget : (⟨t, target⟩ : Tealet) ≠ L.running := by
    rw [← h.current]
    exact fun heq => hne (congrArg Tealet.id heq)
  unfold State.traceCb
  rw [if_pos h.enabled, hensure]
  dsimp only
  rw [h.gilHandoff hslot, h.current]
  cases exits with
  | false => exact (hact.leaveBound hcur howner).switchTo hlive htarget
  | true =>
    rw [if_pos rfl, exitTealet_bindTealet]
    rcases hact.unwind hcur howner with ⟨hhalt, hflowner, hflid, -, hbilled⟩
    have hmem : (cur.pause now).flush now ∈ ((((s.active t).onStack cur.id (Stack.pause now)).onStack cur.id
        (Stack.flush now)).unbindTealet L.running).stackList := by
      have hpaused : cur.pause now ∈ ((s.active t).onStack cur.id (Stack.pause now)).stackList :=
        mem_onStack_self (s := s.active t) hcur
      exact mem_onStack_self hpaused
    have hid : ((cur.pause now).flush now).id = cur.id := hflid
    have hgone : ∀ p ∈ ((((s.active t).onStack cur.id (Stack.pause now)).onStack cur.id
        (Stack.flush now)).unbindTealet L.running).byTealet, p.1 ≠ L.running :=
      fun p hp => by simpa [State.unbindTealet] using (mem_filter.1 hp).2
    have hfold := hhalt.foldStack hmem hflowner (hid ▸ hslot) hgone hbilled
    rw [hid] at hfold
    refine hfold.switchTo ?_ htarget
    have hdead :=
      (Prod.mk.inj (life_exitTealet ((s.active t).onStack cur.id (Stack.pause now)) t now L.running
      cur.id)).2
    intro hmem'
    exact hlive (hdead ▸ hmem')

theorem Kept.step {family : κ → Option φ} {e : Event κ} (h : Kept t s L) (hnested : L.Nested e)
    (hs : Profiler.step family s (e.action t) = some s') : Kept t s' (L.next family t e) := by
  cases e with
  | enter now key =>
    cases hs
    exact h.enterCall family now key
  | leave now key =>
    cases hs
    exact h.leaveCall hnested
  | switch now target exits =>
    simp only [Event.action, Profiler.step] at hs
    split at hs
    · cases hs
    · rename_i hnot
      cases hs
      rcases not_or.1 hnot with ⟨hne, hlive⟩
      exact h.traceCb now hne hlive
  | setFold on =>
    cases hs
    exact ⟨⟨h.fresh, h.ids, h.owners, h.bound, rfl,
      fun x hx => ⟨(h.sheet x hx).keys, (h.sheet x hx).family, (h.sheet x hx).levelled⟩,
      h.blank, h.exited, h.folded⟩,
      h.enabled, h.current, h.dead, h.slot, h.found, h.active, h.runs, h.rests⟩

theorem Kept.session {family : κ → Option φ} {c c' : State κ φ × Ledger κ φ}
    {e : Event κ} (h : Kept t c.1 c.2)
    (hs : session family t c e = some c') : Kept t c'.1 c'.2 := by
  unfold Profiler.session at hs
  split at hs
  · rename_i hnested
    cases hstep : Profiler.step family c.1 (e.action t) with
    | none => simp [hstep] at hs
    | some s' =>
      simp only [hstep, Option.some.injEq] at hs
      subst hs
      exact h.step hnested hstep
  · cases hs

theorem Kept.opened (t : Nat) (foldOnExit slice : Bool) :
    Kept t (opened t foldOnExit slice : State κ φ × Ledger κ φ).1
      (Profiler.opened t foldOnExit slice).2 := by
  have hmem : ∀ x ∈ (Profiler.opened t foldOnExit slice : State κ φ × Ledger κ φ).1.stackList,
      x = { id := 0, owner := ⟨t, 0⟩ } := fun x hx => mem_singleton.1 hx
  refine ⟨⟨fun x hx => ?_, fun x hx y hy _ => (hmem x hx).trans (hmem y hy).symm,
    fun x hx y hy _ => (hmem x hx).trans (hmem y hy).symm, fun p hp => absurd hp not_mem_nil, rfl,
    fun x hx => ?_,
    fun a _ _ => ⟨rfl, rfl, fun _ _ => rfl⟩, fun a ha => absurd ha not_mem_nil, fun f k m => ?_⟩, rfl, rfl,
    fun a ha => absurd ha not_mem_nil, ⟨_, mem_cons_self, update_self t _ _, rfl⟩,
    fun x hx hne => ?_, fun _ => .inr ⟨rfl, rfl⟩, fun x hx _ k m => ?_, fun x hx hne => ?_⟩
  · rw [hmem x hx]
    exact Nat.zero_lt_one
  · rw [hmem x hx]
    exact ⟨rfl, rfl, fun k => not_mem_nil⟩
  · cases m <;> rfl
  · rw [hmem x hx] at hne
    exact absurd rfl hne
  · rw [hmem x hx, Stack.value_of_ctx_nil rfl]
    cases m <;> rfl
  · rw [hmem x hx] at hne
    exact absurd rfl hne

/-! ## The end of a session -/

omit [DecidableEq φ] in
/-- A flush is right for a stack that has run until now, and for one that stands still if no time
has passed. -/
theorem flush_rested (h : Sheet L st) (hrest : Rested L st) (now : Int) :
    (∀ k m, billed ((st.flush now).entries k) m = L.account st.owner k m) ↔ ∀ c ∈ st.ctx, c.t0 = now := by
  rcases hrest with ⟨past, hpast, hvalue⟩
  have hbilled := (Stack.flush_spec h.levelled now).2.2.1
  constructor
  · intro hall c hc
    -- the total time of a key on the stack would have grown
    have hkey : c.key ∈ keys st.ctx := mem_map_of_mem hc
    have htotal := (hbilled c.key .total).symm.trans (hall c.key .total)
    rw [Stack.value_later past now, hvalue, share, if_pos hkey] at htotal
    rw [hpast c hc]
    omega
  · intro hall k m
    rw [hbilled, Stack.value_later past now, hvalue]
    cases hctx : st.ctx with
    | nil =>
      rw [keys_nil, share_nil]
      omega
    | cons c rest =>
      have hc : c ∈ st.ctx := hctx ▸ mem_cons_self
      rw [← hpast c hc, hall c hc, Int.sub_self, Int.mul_zero, Int.add_zero]

theorem Kept.disable (h : Kept t s L) (now : Int) :
    Billed (s.disable now) (L.pass now) ↔ Settled s t now := by
  have hpass := h.pass now
  rcases h.slot with ⟨cur, hcur, hslot, howner⟩
  have hcurrent : ∀ st ∈ s.stackList, s.slots t = some st.id ↔ st.owner = L.running := by
    intro st hst
    constructor
    · intro heq
      rw [h.ids st hst cur hcur (Option.some.inj (heq.symm.trans hslot))]
      exact howner
    · intro heq
      rw [h.owners st hst cur hcur (heq.trans howner.symm)]
      exact hslot
  have hflushed : ∀ st ∈ s.stackList, (st.flush now).owner = st.owner := fun st hst =>
    (Stack.flush_spec (h.sheet st hst).levelled now).2.2.2.2.1
  have hstacks : (s.disable now).stackList = s.stackList.map (Stack.flush now) ∧
      (s.disable now).folded = s.folded := by
    unfold State.disable
    rw [if_pos h.enabled]
    exact ⟨rfl, rfl⟩
  constructor
  · intro hb st hst hne
    have hrest := hpass.rests st hst fun heq => hne ((hcurrent st hst).2 heq)
    refine (flush_rested (hpass.sheet st hst) hrest now).1 fun k m => ?_
    rw [hb.stackList (st.flush now) (hstacks.1 ▸ mem_map_of_mem hst), hflushed st hst]
  · intro hset
    refine ⟨fun x hx k m => ?_, fun f k m => ?_, fun a k m hne => ?_⟩
    · rw [hstacks.1] at hx
      rcases mem_map.1 hx with ⟨st, hst, rfl⟩
      rw [hflushed st hst]
      by_cases hrun : st.owner = L.running
      · rw [(Stack.flush_spec (h.sheet st hst).levelled now).2.2.1]
        exact hpass.runs st hst hrun k m
      · refine (flush_rested (hpass.sheet st hst) (hpass.rests st hst hrun) now).2
          (hset st hst fun heq => ?_) k m
        exact hrun ((hcurrent st hst).1 heq)
    · rw [hstacks.2]
      exact hpass.folded f k m
    · by_contra hnot
      rcases not_or.1 hnot with ⟨hexited, hnone⟩
      refine hne ((hpass.blank a hexited fun st hst heq => hnone ?_).2.2 k m)
      exact ⟨st.flush now, hstacks.1 ▸ mem_map_of_mem hst, (hflushed st hst).trans heq⟩

/-- After every session, the entries have exactly what the tealets have taken while they ran if and
only if no time has passed since the switch away from a tealet that still has frames. -/
theorem disable_bills {family : κ → Option φ} {foldOnExit slice : Bool} {c : State κ φ × Ledger κ φ}
    (h : Reachable (session family t) (opened t foldOnExit slice) c) (now : Int) :
    Billed (c.1.disable now) (c.2.pass now) ↔ Settled c.1 t now := by
  have hkept : Kept t c.1 c.2 := h.invariant (I := fun c => Kept t c.1 c.2) (Kept.opened t foldOnExit slice)
    fun _ _ _ hc hs => hc.session hs
  exact hkept.disable now

end Keys

/-- Two tealets, calls that nest and recur, and an exit. -/
theorem disable_bills_exit : ∃ c,
    exec (session (fun _ : Nat => (none : Option Nat)) 0) (opened 0 true true)
      [.enter 0 1, .enter 2 1, .switch 3 1 false, .enter 5 2, .switch 9 0 true, .leave 10 1] = some c ∧
    (Billed (c.1.disable 12) (c.2.pass 12) ↔ Settled c.1 0 12) := by
  have hrun : (exec (session (fun _ : Nat => (none : Option Nat)) 0) (opened 0 true true)
      [.enter 0 1, .enter 2 1, .switch 3 1 false, .enter 5 2, .switch 9 0 true, .leave 10 1]).isSome
        = true := by
    decide
  rcases Option.isSome_iff_exists.1 hrun with ⟨c, hc⟩
  exact ⟨c, hc, disable_bills (Reachable.exec _ Reachable.refl hc) 12⟩

/-- A tealet is switched out in a frame that it has had for ten units of time; ninety more pass
before the profiler is disabled. -/
theorem flush_bills_switched_out : ∃ c,
    exec (session (fun _ : Nat => (none : Option Nat)) 0) (opened 0 true true)
      [.enter 0 7, .switch 10 1 false] = some c ∧ ¬ Billed (c.1.disable 100) (c.2.pass 100) := by
  refine ⟨_, rfl, fun h => ?_⟩
  have htotal := h.stackList _ (mem_cons_of_mem _ mem_cons_self) 7 .total
  exact absurd htotal (by decide)

end Pytealet.Profiler
