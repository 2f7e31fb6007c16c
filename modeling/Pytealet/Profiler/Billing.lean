import Mathlib.Data.List.Count
import Pytealet.Profiler.Stacks

/-!
# Billing — what a stack bills

An open frame keeps the time that it has spent and the moment from which more is counted.  The value
of a stack at a moment is what its entries would hold if it were flushed at that moment: the entries
with what is pending in its frames.

* a call that is entered or ends, and a pause, leave the value at that moment as it is;
* a flush turns the value at that moment into the entries;
* between two moments the value grows by the time that has passed, for the inline time of the
  innermost frame and for the total time of every key that has a frame.

So the value of a stack that is paused, and resumed later, leaves out the time between the two.
-/

namespace Pytealet.Profiler

open Lib Function List Option

/-- What an entry measures. -/
inductive Measure
  | inline
  | total
  | calls
  deriving DecidableEq, Repr

variable {κ φ : Type*}

def Entry.get (e : Entry) : Measure → Int
  | .inline => e.it
  | .total => e.tt
  | .calls => e.callcount

/-- Without an entry nothing is billed. -/
def billed (e : Option Entry) (m : Measure) : Int :=
  (e.getD {}).get m

namespace Context

/-- The time of a frame, its children included, if it runs until `now`. -/
def elapsed (now : Int) (c : Context κ) : Int :=
  c.spent + (now - c.t0)

@[simp]
theorem elapsed_pause (now : Int) (c : Context κ) : (c.pause now).elapsed now = c.elapsed now := by
  simp [elapsed, pause]

@[simp]
theorem key_pause (now : Int) (c : Context κ) : (c.pause now).key = c.key :=
  rfl

@[simp]
theorem subt_pause (now : Int) (c : Context κ) : (c.pause now).subt = c.subt :=
  rfl

@[simp]
theorem key_resume (now : Int) (c : Context κ) : (c.resume now).key = c.key :=
  rfl

@[simp]
theorem subt_resume (now : Int) (c : Context κ) : (c.resume now).subt = c.subt :=
  rfl

theorem elapsed_resume {past : Int} {c : Context κ} (h : c.t0 = past) (now : Int) :
    (c.resume now).elapsed now = c.elapsed past := by
  simp [elapsed, resume, h]

theorem elapsed_later (now later : Int) (c : Context κ) :
    c.elapsed later = c.elapsed now + (later - now) := by
  unfold elapsed
  omega

end Context

def keys (ctx : List (Context κ)) : List κ :=
  ctx.map Context.key

@[simp]
theorem keys_nil : keys ([] : List (Context κ)) = [] :=
  rfl

@[simp]
theorem keys_cons (c : Context κ) (rest : List (Context κ)) : keys (c :: rest) = c.key :: keys rest :=
  rfl

@[simp]
theorem keys_addSubt (tt : Int) (rest : List (Context κ)) : keys (addSubt tt rest) = keys rest := by
  cases rest <;> rfl

@[simp]
theorem keys_pause (now : Int) (ctx : List (Context κ)) :
    keys (ctx.map (Context.pause now)) = keys ctx := by
  simp [keys, comp_def]

@[simp]
theorem keys_resume (now : Int) (ctx : List (Context κ)) :
    keys (ctx.map (Context.resume now)) = keys ctx := by
  simp [keys, comp_def]

section Keys

variable [DecidableEq κ]

/-! ## What is pending -/

/-- The inline time that the frames of `k` get when all of them end now; `child` is the time of the
frame that the first one has called. -/
def pendingInline (now : Int) (k : κ) : Int → List (Context κ) → Int
  | _, [] => 0
  | child, c :: rest =>
    (if c.key = k then c.elapsed now - c.subt - child else 0) + pendingInline now k (c.elapsed now) rest

/-- Of the frames of `k` only the outermost one counts for its total time. -/
def pendingTotal (now : Int) (k : κ) : List (Context κ) → Int
  | [] => 0
  | c :: rest =>
    if k ∈ keys rest then pendingTotal now k rest
    else if c.key = k then c.elapsed now else 0

def pending (now : Int) (ctx : List (Context κ)) (k : κ) : Measure → Int
  | .inline => pendingInline now k 0 ctx
  | .total => pendingTotal now k ctx
  | .calls => ((keys ctx).count k : Int)

/-- What time is for, when a tealet has these frames. -/
def share (frames : List κ) (k : κ) : Measure → Int
  | .inline => if frames.head? = some k then 1 else 0
  | .total => if k ∈ frames then 1 else 0
  | .calls => 0

@[simp]
theorem share_nil (k : κ) (m : Measure) : share [] k m = 0 := by
  cases m <;> simp [share]

@[simp]
theorem pending_nil (now : Int) (k : κ) (m : Measure) : pending now [] k m = 0 := by
  cases m <;> rfl

theorem pendingTotal_of_not_mem {now : Int} {k : κ} {ctx : List (Context κ)} (h : k ∉ keys ctx) :
    pendingTotal now k ctx = 0 := by
  cases ctx with
  | nil => rfl
  | cons c rest =>
    rw [keys_cons, mem_cons, not_or] at h
    rw [pendingTotal, if_neg h.2, if_neg fun heq => h.1 heq.symm]

theorem pendingInline_addSubt (now : Int) (k : κ) (tt : Int) (rest : List (Context κ)) :
    pendingInline now k 0 (addSubt tt rest) = pendingInline now k tt rest := by
  cases rest with
  | nil => rfl
  | cons c rest =>
    have helapsed : ({ c with subt := c.subt + tt } : Context κ).elapsed now = c.elapsed now := rfl
    simp only [addSubt, pendingInline, helapsed]
    split <;> omega

theorem pendingTotal_addSubt (now : Int) (k : κ) (tt : Int) (rest : List (Context κ)) :
    pendingTotal now k (addSubt tt rest) = pendingTotal now k rest := by
  cases rest with
  | nil => rfl
  | cons c rest => rfl

theorem pendingInline_later (now later : Int) (k : κ) (child : Int) (ctx : List (Context κ)) :
    pendingInline later k (child + (later - now)) ctx = pendingInline now k child ctx := by
  induction ctx generalizing child with
  | nil => rfl
  | cons c rest ih =>
    simp only [pendingInline, Context.elapsed_later now later c, ih]
    split <;> omega

theorem pendingTotal_later (now later : Int) (k : κ) (ctx : List (Context κ)) :
    pendingTotal later k ctx = pendingTotal now k ctx + (if k ∈ keys ctx then later - now else 0) := by
  induction ctx with
  | nil => simp [pendingTotal]
  | cons c rest ih =>
    simp only [pendingTotal, keys_cons, mem_cons]
    by_cases hrest : k ∈ keys rest
    · rw [if_pos hrest, if_pos hrest, if_pos (Or.inr hrest), ih, if_pos hrest]
    · rw [if_neg hrest, if_neg hrest]
      by_cases hc : c.key = k
      · rw [if_pos hc, if_pos hc, if_pos (Or.inl hc.symm), Context.elapsed_later now later c]
      · rw [if_neg hc, if_neg hc, if_neg (not_or.2 ⟨fun heq => hc heq.symm, hrest⟩), Int.add_zero]

theorem pending_later (now later : Int) (ctx : List (Context κ)) (k : κ) (m : Measure) :
    pending later ctx k m = pending now ctx k m + share (keys ctx) k m * (later - now) := by
  cases m with
  | inline =>
    cases ctx with
    | nil => simp [pending, pendingInline, share]
    | cons c rest =>
      simp only [pending, pendingInline, share, keys_cons, List.head?_cons, Option.some.injEq,
        Context.elapsed_later now later c, pendingInline_later]
      split <;> omega
  | total =>
    simp only [pending, share, pendingTotal_later now later]
    split <;> omega
  | calls => simp [pending, share]

theorem pending_congr {now now' : Int} {f : Context κ → Context κ} {ctx : List (Context κ)}
    (helapsed : ∀ c ∈ ctx, (f c).elapsed now' = c.elapsed now) (hkey : ∀ c, (f c).key = c.key)
    (hsubt : ∀ c, (f c).subt = c.subt) (k : κ) (m : Measure) :
    pending now' (ctx.map f) k m = pending now ctx k m := by
  have hkeys : ∀ xs : List (Context κ), keys (xs.map f) = keys xs := fun xs => by
    simp [keys, comp_def, hkey]
  cases m with
  | inline =>
    show pendingInline now' k 0 (ctx.map f) = pendingInline now k 0 ctx
    generalize (0 : Int) = child
    induction ctx generalizing child with
    | nil => rfl
    | cons c rest ih =>
      have hc := helapsed c mem_cons_self
      simp only [map_cons, pendingInline, hkey, hsubt, hc]
      rw [ih (fun c' hc' => helapsed c' (mem_cons_of_mem _ hc'))]
  | total =>
    show pendingTotal now' k (ctx.map f) = pendingTotal now k ctx
    induction ctx with
    | nil => rfl
    | cons c rest ih =>
      have hc := helapsed c mem_cons_self
      simp only [map_cons, pendingTotal, hkey, hkeys, hc]
      rw [ih (fun c' hc' => helapsed c' (mem_cons_of_mem _ hc'))]
  | calls =>
    show ((keys (ctx.map f)).count k : Int) = ((keys ctx).count k : Int)
    rw [hkeys]

theorem pending_pause (now : Int) (ctx : List (Context κ)) (k : κ) (m : Measure) :
    pending now (ctx.map (Context.pause now)) k m = pending now ctx k m :=
  pending_congr (fun c _ => Context.elapsed_pause now c) (Context.key_pause now)
    (Context.subt_pause now) k m

theorem pending_resume {past : Int} {ctx : List (Context κ)} (h : ∀ c ∈ ctx, c.t0 = past)
    (now : Int) (k : κ)
    (m : Measure) : pending now (ctx.map (Context.resume now)) k m = pending past ctx k m :=
  pending_congr (fun c hc => Context.elapsed_resume (h c hc) now) (Context.key_resume now)
    (Context.subt_resume now) k m

/-! ## The value of a stack -/

namespace Stack

/-- What the entries would hold if the stack were flushed now. -/
def value (now : Int) (st : Stack κ φ) (k : κ) (m : Measure) : Int :=
  billed (st.entries k) m + pending now st.ctx k m

/-- The keys of the frames have entries, which know how many frames there are. -/
def Levelled (st : Stack κ φ) : Prop :=
  ∀ k : κ, match st.entries k with
    | none => k ∉ keys st.ctx
    | some e => e.recursionLevel = (keys st.ctx).count k

theorem value_later (now later : Int) (st : Stack κ φ) (k : κ) (m : Measure) :
    st.value later k m = st.value now k m + share (keys st.ctx) k m * (later - now) := by
  unfold value
  rw [pending_later now later]
  omega

@[simp]
theorem value_pause (now : Int) (st : Stack κ φ) (k : κ) (m : Measure) :
    (st.pause now).value now k m = st.value now k m := by
  show billed (st.entries k) m + pending now (st.ctx.map (Context.pause now)) k m = _
  rw [pending_pause]
  rfl

variable {st : Stack κ φ}

theorem value_resume {past : Int} (h : ∀ c ∈ st.ctx, c.t0 = past) (now : Int) (k : κ)
    (m : Measure) : (st.resume now).value now k m = st.value past k m := by
  show billed (st.entries k) m + pending now (st.ctx.map (Context.resume now)) k m = _
  rw [pending_resume h]
  rfl

theorem value_of_ctx_nil (h : st.ctx = []) (now : Int) (k : κ) (m : Measure) :
    st.value now k m = billed (st.entries k) m := by
  unfold value
  rw [h, pending_nil, Int.add_zero]

theorem value_push [DecidableEq φ] (family : κ → Option φ) (now : Int) (owner : Tealet)
    (key : κ) (st : Stack κ φ)
    (k : κ) (m : Measure) :
    (st.push family now owner key).value now k m =
      st.value now k m + (if k = key ∧ m = .calls then 1 else 0) := by
  have helapsed : ({ t0 := now, spent := 0, subt := 0, key, owner } : Context κ).elapsed now = 0 := by
    simp [Context.elapsed]
  -- the entry is a new one or an old one; its level is not among what it bills
  have hentry : billed ((st.push family now owner key).entries k) m = billed (st.entries k) m := by
    show billed (update st.entries key _ k) m = _
    by_cases hk : k = key
    · subst hk
      rw [update_self]
      cases m <;> rfl
    · rw [update_of_ne hk]
  unfold value
  rw [hentry]
  show _ + pending now ({ t0 := now, spent := 0, subt := 0, key, owner } :: st.ctx) k m = _
  cases m with
  | inline =>
    simp only [pending, pendingInline, helapsed]
    simp
  | total =>
    simp only [pending, pendingTotal, helapsed, ite_self]
    by_cases hk : k ∈ keys st.ctx
    · simp [hk]
    · simp [hk, pendingTotal_of_not_mem hk]
  | calls =>
    simp only [pending, keys_cons, count_cons, beq_iff_eq]
    by_cases hk : key = k
    · subst hk
      simp [Int.add_assoc]
    · have hk' : k ≠ key := fun heq => hk heq.symm
      simp [hk, hk']

theorem levelled_push [DecidableEq φ] (h : st.Levelled) (family : κ → Option φ) (now : Int)
    (owner : Tealet) (key : κ) : (st.push family now owner key).Levelled := by
  intro k
  have hk := h k
  show match update st.entries key _ k with
    | none => k ∉ key :: keys st.ctx
    | some e => e.recursionLevel = ((key :: keys st.ctx).count k : Int)
  by_cases heq : k = key
  · subst heq
    rw [update_self]
    simp only [count_cons_self]
    cases he : st.entries k with
    | none =>
      rw [he] at hk
      simp [count_eq_zero_of_not_mem hk]
    | some e =>
      rw [he] at hk
      simp only [getD_some]
      have hk' : e.recursionLevel = ((keys st.ctx).count k : Int) := hk
      rw [hk']
      omega
  · rw [update_of_ne heq, count_cons_of_ne fun hkey => heq hkey.symm]
    cases he : st.entries k with
    | none =>
      rw [he] at hk
      simpa [heq] using hk
    | some e =>
      rw [he] at hk
      exact hk

theorem pop_eq {c : Context κ} {rest : List (Context κ)} {e : Entry} (hctx : st.ctx = c :: rest)
    (he : st.entries c.key = some e) (now : Int) :
    st.pop now c.key = { st with
      ctx := addSubt (c.elapsed now) rest
      entries := update st.entries c.key (some (e.close (c.elapsed now) (c.elapsed now - c.subt))) } := by
  unfold pop
  simp only [hctx, he]
  rfl

theorem value_pop {c : Context κ} {rest : List (Context κ)} (h : st.Levelled)
    (hctx : st.ctx = c :: rest) (now : Int) (k : κ) (m : Measure) :
    (st.pop now c.key).value now k m = st.value now k m := by
  have hc := h c.key
  rw [hctx, keys_cons] at hc
  cases he : st.entries c.key with
  | none =>
    rw [he] at hc
    exact absurd mem_cons_self hc
  | some e =>
    rw [he] at hc
    have hlevel : e.recursionLevel - 1 = ((keys rest).count c.key : Int) := by
      have hc' : e.recursionLevel = ((c.key :: keys rest).count c.key : Int) := hc
      rw [hc', count_cons_self]
      omega
    rw [pop_eq hctx he]
    unfold value
    dsimp only
    rw [hctx]
    by_cases hk : k = c.key
    · subst hk
      rw [update_self, he]
      cases m with
      | inline =>
        simp only [pending, pendingInline_addSubt, pendingInline, eq_self, if_true,
          billed, getD_some, Entry.get,
          Entry.close]
        omega
      | total =>
        simp only [pending, pendingTotal_addSubt, pendingTotal, eq_self, if_true,
          billed, getD_some, Entry.get,
          Entry.close]
        by_cases hrest : c.key ∈ keys rest
        · have hpos : e.recursionLevel - 1 ≠ 0 := by
            rw [hlevel]
            have hcount := count_pos_iff.2 hrest
            omega
          rw [if_neg hpos, if_pos hrest]
        · have hzero : e.recursionLevel - 1 = 0 := by
            rw [hlevel, count_eq_zero_of_not_mem hrest]
            rfl
          rw [if_pos hzero, if_neg hrest, pendingTotal_of_not_mem hrest, Int.add_zero]
      | calls =>
        simp only [pending, keys_addSubt, keys_cons, count_cons_self, billed, getD_some, Entry.get,
          Entry.close]
        omega
    · rw [update_of_ne hk]
      have hk' : c.key ≠ k := fun heq => hk heq.symm
      cases m with
      | inline => simp only [pending, pendingInline_addSubt, pendingInline, if_neg hk', Int.zero_add]
      | total =>
        simp only [pending, pendingTotal_addSubt, pendingTotal, if_neg hk']
        split
        · rfl
        · rename_i hrest
          rw [pendingTotal_of_not_mem hrest]
      | calls => simp only [pending, keys_addSubt, keys_cons, count_cons_of_ne hk']

theorem levelled_pop {c : Context κ} {rest : List (Context κ)} (h : st.Levelled)
    (hctx : st.ctx = c :: rest) (now : Int) : (st.pop now c.key).Levelled := by
  have hc := h c.key
  rw [hctx, keys_cons] at hc
  cases he : st.entries c.key with
  | none =>
    rw [he] at hc
    exact absurd mem_cons_self hc
  | some e =>
    rw [he] at hc
    have hc' : e.recursionLevel = ((c.key :: keys rest).count c.key : Int) := hc
    rw [pop_eq hctx he]
    intro k
    dsimp only
    rw [keys_addSubt]
    by_cases hk : k = c.key
    · subst hk
      rw [update_self]
      show e.recursionLevel - 1 = _
      rw [hc', count_cons_self]
      omega
    · have hold := h k
      rw [hctx, keys_cons] at hold
      rw [update_of_ne hk]
      cases hek : st.entries k with
      | none =>
        rw [hek] at hold
        exact fun hmem => hold (mem_cons_of_mem _ hmem)
      | some e' =>
        rw [hek] at hold
        have hold' : e'.recursionLevel = ((c.key :: keys rest).count k : Int) := hold
        show e'.recursionLevel = _
        rw [hold', count_cons_of_ne fun heq => hk heq.symm]

theorem keys_pop (now : Int) (key : κ) (st : Stack κ φ) :
    keys (st.pop now key).ctx = (keys st.ctx).tail := by
  unfold pop
  split
  · rename_i hctx
    rw [hctx]
    rfl
  · rename_i c rest hctx
    rw [hctx]
    exact keys_addSubt _ rest

theorem family_pop (now : Int) (key : κ) (st : Stack κ φ) :
    (st.pop now key).family = st.family ∧ (st.pop now key).owner = st.owner ∧
      (st.pop now key).id = st.id := by
  unfold pop
  split <;> exact ⟨rfl, rfl, rfl⟩

theorem popAll_eq (now : Int) (n : Nat) (st : Stack κ φ) (h : st.Levelled) (hn : st.ctx.length ≤ n) :
    (st.popAll now n).ctx = [] ∧ (st.popAll now n).Levelled ∧
      (∀ k m, (st.popAll now n).value now k m = st.value now k m) ∧ (st.popAll now n).family = st.family ∧
      (st.popAll now n).owner = st.owner ∧ (st.popAll now n).id = st.id := by
  induction n generalizing st with
  | zero =>
    have hctx : st.ctx = [] := length_eq_zero_iff.1 (Nat.le_zero.1 hn)
    exact ⟨hctx, h, fun _ _ => rfl, rfl, rfl, rfl⟩
  | succ n ih =>
    unfold popAll
    cases hctx : st.ctx with
    | nil => exact ⟨hctx, h, fun _ _ => rfl, rfl, rfl, rfl⟩
    | cons c rest =>
      have hlen : (st.pop now c.key).ctx.length ≤ n := by
        have hkeys := congrArg List.length (keys_pop now c.key st)
        simp only [keys, length_map, length_tail] at hkeys
        omega
      rcases family_pop now c.key st with ⟨hfamily, howner, hid⟩
      rcases ih (st.pop now c.key) (levelled_pop h hctx now) hlen with ⟨hnil, hlev, hvalue, hf, ho, hi⟩
      exact ⟨hnil, hlev, fun k m => (hvalue k m).trans (value_pop h hctx now k m), hf.trans hfamily,
        ho.trans howner, hi.trans hid⟩

theorem flush_spec (h : st.Levelled) (now : Int) :
    (st.flush now).ctx = [] ∧ (st.flush now).Levelled ∧
      (∀ k m, billed ((st.flush now).entries k) m = st.value now k m) ∧ (st.flush now).family = st.family ∧
      (st.flush now).owner = st.owner ∧ (st.flush now).id = st.id := by
  rcases popAll_eq now st.ctx.length st h (Nat.le_refl _) with ⟨hnil, hlev, hvalue, hrest⟩
  exact ⟨hnil, hlev, fun k m => (value_of_ctx_nil hnil now k m).symm.trans (hvalue k m), hrest⟩

end Stack

omit [DecidableEq κ] in
theorem billed_add [DecidableEq φ] (f : Folded κ) (st : Stack κ φ) (k : κ) (m : Measure) :
    billed ((f.add st).entries k) m = billed (f.entries k) m + billed (st.entries k) m := by
  unfold Folded.add
  dsimp only
  cases st.entries k with
  | none => cases m <;> simp [billed, Entry.get]
  | some src => cases m <;> simp [billed, Entry.get, Entry.merge]

end Keys

end Pytealet.Profiler
