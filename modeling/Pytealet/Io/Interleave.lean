import Mathlib.Data.List.Induction
import Mathlib.Data.List.Perm.Basic
import Mathlib.Data.List.ReduceOption
import Pytealet.Lib.Dict

/-!
# Interleave — the order in which the addresses of a host are tried

`_interleave_addrinfos` groups the addresses by family, takes some of the first family in front, and
then one of each family in turn.  The dictionary keeps the families in the order in which they
occur.
-/

namespace Pytealet.Io.Interleave

open Lib Function List

/-- `_AddrInfo`; the first component is the family. -/
abbrev AddrInfo (σ : Type*) :=
  Int × Int × Int × String × σ

variable {σ α : Type*}

def addrinfosByFamily (addrinfos : List (AddrInfo σ)) : Dict Int (List (AddrInfo σ)) :=
  addrinfos.foldl (fun d addr => d.set addr.1 ((d.get? addr.1).getD [] ++ [addr])) Dict.empty

/-- The tuples of `itertools.zip_longest`. -/
def zipLongest (lists : List (List α)) : List (List (Option α)) :=
  (List.range ((lists.map List.length).foldr max 0)).map fun j => lists.map fun l => l[j]?

/-- The rest of the addresses, chained, without the filling. -/
def chained (lists : List (List α)) : List α :=
  (zipLongest lists).flatten.reduceOption

/-- `_interleave_addrinfos`; without an address there is no first family to take from. -/
def interleaveAddrinfos (addrinfos : List (AddrInfo σ)) (firstAddressFamilyCount : Nat) :
    Option (List (AddrInfo σ)) :=
  let addrinfosLists := (addrinfosByFamily addrinfos).items.map Prod.snd
  if 1 < firstAddressFamilyCount then
    match addrinfosLists with
    | [] => none
    | first :: rest =>
      some (first.take (firstAddressFamilyCount - 1) ++ chained
        (first.drop (firstAddressFamilyCount - 1) :: rest))
  else some (chained addrinfosLists)

/-! ## What it is for -/

/-- One of each list that has one left, and so on, until all are exhausted. -/
inductive RoundRobin : List (List α) → List α → Prop
  | done {lists : List (List α)} (h : ∀ l ∈ lists, l = []) : RoundRobin lists []
  | round {lists : List (List α)} {out : List α} (h : ∃ l ∈ lists, l ≠ [])
    (rest : RoundRobin (lists.map List.tail) out) :
      RoundRobin lists (lists.filterMap List.head? ++ out)

/-- The families, as they occur first. -/
def families : List (AddrInfo σ) → List Int
  | [] => []
  | addr :: addrinfos => addr.1 :: (families addrinfos).filter fun f => f ≠ addr.1

def ofFamily (addrinfos : List (AddrInfo σ)) (f : Int) : List (AddrInfo σ) :=
  addrinfos.filter fun addr => addr.1 = f

/-- `count` addresses of the first family come first; from the last of these on, the families take
turns. -/
structure Interleaved (addrinfos : List (AddrInfo σ)) (count : Nat) (out : List (AddrInfo σ)) : Prop where
  perm : out.Perm addrinfos
  order : ∀ f, ofFamily out f = ofFamily addrinfos f
  turns : ∃ first others rest, families addrinfos = first :: others ∧
    (ofFamily addrinfos first).take count <+: out ∧
    out = (ofFamily addrinfos first).take (count - 1) ++ rest ∧
    RoundRobin ((ofFamily addrinfos first).drop (count - 1) :: others.map (ofFamily addrinfos)) rest

/-! ## Families -/

variable {addrinfos : List (AddrInfo σ)} {ks : List Int}

theorem mem_families {f : Int} : f ∈ families addrinfos ↔ ∃ addr ∈ addrinfos, addr.1 = f := by
  induction addrinfos with
  | nil => simp [families]
  | cons addr addrinfos ih =>
    simp only [families, mem_cons, mem_filter, ih, decide_eq_true_eq, exists_eq_or_imp, ne_eq]
    by_cases heq : addr.1 = f
    · simp [heq]
    · simp [heq, Ne.symm heq]

theorem nodup_families (addrinfos : List (AddrInfo σ)) : (families addrinfos).Nodup := by
  induction addrinfos with
  | nil => exact nodup_nil
  | cons addr addrinfos ih =>
    refine nodup_cons.mpr ⟨?_, ih.filter _⟩
    simp

theorem families_append (addrinfos : List (AddrInfo σ)) (addr : AddrInfo σ) :
    families (addrinfos ++ [addr]) =
    if addr.1 ∈ families addrinfos then families addrinfos else families addrinfos ++ [addr.1] := by
  induction addrinfos with
  | nil => simp [families]
  | cons a addrinfos ih =>
    simp only [cons_append, families, ih]
    by_cases heq : addr.1 = a.1
    · simp only [heq, mem_cons, true_or, if_true]
      split
      · rfl
      · simp
    · by_cases hmem : addr.1 ∈ families addrinfos
      · simp [hmem, heq]
      · simp [hmem, heq]

theorem put_map (hnodup : ks.Nodup) (k : Int) (v : List α) (g : Int → List α) :
    Dict.put k v (ks.map fun f => (f, g f)) =
      (if k ∈ ks then ks else ks ++ [k]).map fun f => (f, update g k v f) := by
  induction ks with
  | nil => simp [Dict.put]
  | cons f ks ih =>
    rcases nodup_cons.mp hnodup with ⟨hfresh, hrest⟩
    simp only [map_cons, Dict.put]
    by_cases heq : f = k
    · subst heq
      rw [if_pos rfl, if_pos mem_cons_self, map_cons, update_self]
      refine congrArg _ (map_congr_left fun f' hf' => ?_)
      have hne : f' ≠ f := fun heq => hfresh (heq ▸ hf')
      rw [update_of_ne hne]
    · rw [if_neg heq, ih hrest]
      by_cases hmem : k ∈ ks
      · simp [hmem, heq]
      · simp [hmem, heq, Ne.symm heq]

theorem items_byFamily (addrinfos : List (AddrInfo σ)) :
    (addrinfosByFamily addrinfos).items = (families addrinfos).map fun f => (f, ofFamily addrinfos f) := by
  induction addrinfos using List.reverseRecOn with
  | nil => rfl
  | append_singleton addrinfos addr ih =>
    have hold : ((addrinfosByFamily addrinfos).get? addr.1).getD [] = ofFamily addrinfos addr.1 := by
      by_cases hmem : addr.1 ∈ families addrinfos
      · have hitem : (addr.1, ofFamily addrinfos addr.1) ∈ (addrinfosByFamily addrinfos).items := by
          rw [ih]
          exact mem_map_of_mem (f := fun f => (f, ofFamily addrinfos f)) hmem
        rw [Dict.mem_items.mp hitem]
        rfl
      · have hnone : (addrinfosByFamily addrinfos).get? addr.1 = none := by
          refine Option.eq_none_iff_forall_ne_some.mpr fun v hv => hmem ?_
          have hitem := Dict.mem_items.mpr hv
          rw [ih] at hitem
          rcases mem_map.mp hitem with ⟨f, hf, heq⟩
          exact congrArg Prod.fst heq ▸ hf
        rw [hnone]
        refine (filter_eq_nil_iff.mpr fun a ha h => hmem ?_).symm
        exact mem_families.mpr ⟨a, ha, of_decide_eq_true h⟩
    have hset : (addrinfosByFamily (addrinfos ++ [addr])).items =
        Dict.put addr.1 (ofFamily addrinfos addr.1 ++ [addr]) (addrinfosByFamily addrinfos).items := by
      unfold addrinfosByFamily
      rw [foldl_append, foldl_cons, foldl_nil, ← hold]
      rfl
    rw [hset, ih, put_map (nodup_families addrinfos), families_append]
    apply map_congr_left
    intro f _
    by_cases heq : f = addr.1
    · subst heq
      simp [ofFamily, filter_append]
    · simp [ofFamily, filter_append, heq, Ne.symm heq]

/-! ## Turns -/

theorem length_le_longest {lists : List (List α)} {l : List α} (hl : l ∈ lists) :
    l.length ≤ (lists.map List.length).foldr max 0 := by
  induction lists with
  | nil => exact absurd hl not_mem_nil
  | cons l' lists ih =>
    rcases mem_cons.mp hl with rfl | hl
    · exact Nat.le_max_left _ _
    · exact Nat.le_trans (ih hl) (Nat.le_max_right _ _)

theorem longest_tail (lists : List (List α)) :
    ((lists.map List.tail).map List.length).foldr max 0 = (lists.map List.length).foldr max 0 - 1 := by
  induction lists with
  | nil => rfl
  | cons l lists ih =>
    simp only [map_cons, foldr_cons, ih, length_tail]
    omega

theorem roundRobin_chained (lists : List (List α)) : RoundRobin lists (chained lists) := by
  -- by induction on the number of rounds
  generalize hm : (lists.map List.length).foldr max 0 = m
  induction m generalizing lists with
  | zero =>
    have hnil : chained lists = [] := by
      unfold chained zipLongest
      rw [hm]
      rfl
    rw [hnil]
    refine .done fun l hl => eq_nil_of_length_eq_zero (Nat.le_zero.mp ?_)
    exact hm ▸ length_le_longest hl
  | succ m ih =>
    have htails := ih (lists.map List.tail) (by rw [longest_tail, hm, Nat.add_sub_cancel])
    have hrows : chained lists = lists.filterMap List.head? ++ chained (lists.map List.tail) := by
      unfold chained zipLongest
      rw [longest_tail, hm, Nat.add_sub_cancel, range_succ_eq_map, map_cons, flatten_cons,
        reduceOption_append]
      congr 1
      · simp [List.reduceOption, filterMap_map, List.head?_eq_getElem?]
      · simp [map_map, comp_def]
    rw [hrows]
    refine .round ?_ htails
    by_contra hnone
    push Not at hnone
    have hzero : (lists.map List.length).foldr max 0 = 0 := by
      clear hm htails hrows
      induction lists with
      | nil => rfl
      | cons l lists ih' =>
        rw [map_cons, foldr_cons, hnone l mem_cons_self,
          ih' fun l' hl' => hnone l' (mem_cons_of_mem l hl')]
        rfl
    omega

theorem RoundRobin.starts {l : List α} {lists lists' : List (List α)} {out : List α}
    (h : RoundRobin lists' out)
    (heq : l :: lists = lists') : l.head?.toList <+: out := by
  cases h with
  | done hnil =>
    rw [hnil l (heq ▸ mem_cons_self)]
    exact nil_prefix
  | round _ _ =>
    subst heq
    cases l with
    | nil => exact nil_prefix
    | cons a l => exact ⟨_, rfl⟩

theorem heads_ofFamily (hnodup : ks.Nodup) (g : Int → List (AddrInfo σ))
    (hg : ∀ k, ∀ addr ∈ g k, addr.1 = k) (f : Int) :
    ofFamily ((ks.map g).filterMap List.head?) f = if f ∈ ks then (g f).head?.toList else [] := by
  induction ks with
  | nil => rfl
  | cons k ks ih =>
    rcases nodup_cons.mp hnodup with ⟨hfresh, hrest⟩
    have htail := ih hrest
    unfold ofFamily at htail ⊢
    cases hhead : (g k).head? with
    | none =>
      rw [map_cons, filterMap_cons_none hhead, htail]
      by_cases heq : f = k
      · subst heq
        simp [hfresh, hhead]
      · simp [heq]
    | some addr =>
      have hk : addr.1 = k := hg k addr (mem_of_mem_head? hhead)
      rw [map_cons, filterMap_cons_some hhead, filter_cons, htail]
      by_cases heq : f = k
      · subst heq
        simp [hfresh, hhead, hk]
      · simp [heq, hk, Ne.symm heq]

theorem RoundRobin.ofFamily {lists : List (List (AddrInfo σ))} {out : List (AddrInfo σ)}
    (h : RoundRobin lists out)
    (hnodup : ks.Nodup) (g : Int → List (AddrInfo σ)) (hg : ∀ k, ∀ addr ∈ g k, addr.1 = k)
    (heq : lists = ks.map g)
    (f : Int) : ofFamily out f = if f ∈ ks then g f else [] := by
  induction h generalizing g with
  | done hnil =>
    split
    · rename_i hmem
      exact (hnil (g f) (heq ▸ mem_map_of_mem hmem)).symm
    · rfl
  | round _ _ ih =>
    have hrest :=
      ih (fun k => (g k).tail) (fun k addr hmem => hg k addr (mem_of_mem_tail hmem)) (by simp [heq])
    have hheads := heads_ofFamily hnodup g hg f
    unfold Interleave.ofFamily at hrest hheads ⊢
    rw [filter_append, heq, hheads, hrest]
    split
    · cases g f <;> rfl
    · rfl

theorem perm_of_order {out : List (AddrInfo σ)} (h : ∀ f, ofFamily out f = ofFamily addrinfos f) :
    out.Perm addrinfos := by
  classical
  refine perm_iff_count.mpr fun addr => ?_
  have hfamily : ∀ l : List (AddrInfo σ), (ofFamily l addr.1).count addr = l.count addr :=
    fun l => count_filter (by simp)
  rw [← hfamily out, h, hfamily]

/-- Every address is tried once; those of a family in their order, the first family in front, then
all in turn. -/
theorem interleaves (addrinfos : List (AddrInfo σ)) (firstAddressFamilyCount : Nat) (hne : addrinfos ≠ [])
    (hcount : 1 ≤ firstAddressFamilyCount) : ∃ out,
      interleaveAddrinfos addrinfos firstAddressFamilyCount = some out ∧
      Interleaved addrinfos firstAddressFamilyCount out := by
  generalize hn : firstAddressFamilyCount - 1 = n
  have hcount : firstAddressFamilyCount = n + 1 := by omega
  subst hcount
  cases hks : families addrinfos with
  | nil =>
    cases addrinfos with
    | nil => exact absurd rfl hne
    | cons addr addrinfos => cases hks
  | cons first others =>
    have hitems : (addrinfosByFamily addrinfos).items.map Prod.snd =
        ofFamily addrinfos first :: others.map (ofFamily addrinfos) := by
      rw [items_byFamily, hks]
      simp [comp_def]
    generalize hlists : (ofFamily addrinfos first).drop n :: others.map (ofFamily addrinfos) = lists
    have hout : interleaveAddrinfos addrinfos (n + 1) =
        some ((ofFamily addrinfos first).take n ++ chained lists) := by
      unfold interleaveAddrinfos
      rw [hitems, ← hlists]
      cases n with
      | zero => rfl
      | succ n => exact if_pos (by omega)
    have hturns := roundRobin_chained lists
    have hnodup : (first :: others).Nodup := hks ▸ nodup_families addrinfos
    -- what is left of each family
    have hleft : lists = (first :: others).map
        (update (ofFamily addrinfos) first ((ofFamily addrinfos first).drop n)) := by
      rw [← hlists, map_cons, update_self]
      refine congrArg _ (map_congr_left fun f hf => ?_)
      have hne : f ≠ first := fun heq => (nodup_cons.mp hnodup).1 (heq ▸ hf)
      rw [update_of_ne hne]
    have hof : ∀ f, ∀ addr ∈ ofFamily addrinfos f, addr.1 = f :=
      fun f addr hmem => of_decide_eq_true (mem_filter.mp hmem).2
    have hrest := hturns.ofFamily hnodup _ (fun k addr hmem => ?_) hleft
    · have horder : ∀ f, ofFamily ((ofFamily addrinfos first).take n ++ chained lists) f =
          ofFamily addrinfos f := by
        intro f
        unfold ofFamily at hrest ⊢
        rw [filter_append, hrest]
        by_cases heq : f = first
        · subst heq
          rw [if_pos mem_cons_self, update_self, filter_eq_self.mpr]
          · exact take_append_drop n _
          · intro addr hmem
            exact decide_eq_true (hof f addr (mem_of_mem_take hmem))
        · have hnil : ((ofFamily addrinfos first).take n).filter (fun addr => addr.1 = f) = [] := by
            refine filter_eq_nil_iff.mpr fun addr hmem h => heq ?_
            exact (of_decide_eq_true h).symm.trans (hof first addr (mem_of_mem_take hmem))
          unfold ofFamily at hnil
          rw [hnil, nil_append, update_of_ne heq]
          split
          · rfl
          · rename_i hnot
            refine (filter_eq_nil_iff.mpr fun addr hmem h => hnot ?_).symm
            rw [← hks]
            exact mem_families.mpr ⟨addr, hmem, of_decide_eq_true h⟩
      refine ⟨_, hout, perm_of_order horder, horder, first, others, chained lists, hks,
        ?_, rfl, hlists ▸ hturns⟩
      rw [take_add_one, ← List.head?_drop]
      exact (prefix_append_right_inj _).mpr (hturns.starts hlists)
    · by_cases heq : k = first
      · subst heq
        rw [update_self] at hmem
        exact hof k addr (mem_of_mem_drop hmem)
      · rw [update_of_ne heq] at hmem
        exact hof k addr hmem

/-- Two of the first family in front, of three; the second family comes in between. -/
theorem interleaves_two : ∃ out,
    interleaveAddrinfos [(2, 1, 6, "", 0), (10, 1, 6, "", 1), (2, 1, 6, "", 2),
      (2, 1, 6, "", 3)] 2 = some out ∧
      Interleaved [(2, 1, 6, "", 0), (10, 1, 6, "", 1), (2, 1, 6, "", 2), (2, 1, 6, "", 3)] 2 out :=
  interleaves _ 2 (by decide) (by decide)

end Pytealet.Io.Interleave
