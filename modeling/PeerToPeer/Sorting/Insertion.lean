import Mathlib.Data.List.Induction
import Mathlib.Data.List.Sort

namespace PeerToPeer.Sorting

variable {α κ : Type} [LinearOrder κ] (key : α → κ)

/-- Swap the element at index `j` back past every larger key right before it. -/
def sink : Nat → List α → List α
  | 0, l => l
  | j + 1, l =>
      match l[j]?, l[j + 1]? with
      | some a, some b => if key b < key a then sink j ((l.set (j + 1) a).set j b) else l
      | _, _ => l

/-- Sink `count` elements, from index `i` on. -/
def sinkAll : Nat → Nat → List α → List α
  | 0, _, l => l
  | count + 1, i, l => sinkAll count (i + 1) (sink key i l)

/-- Sort the first `n` elements in place. -/
def sortPrefix (n : Nat) (l : List α) : List α := sinkAll key n 0 l

@[simp] theorem sink_length (j : Nat) (l : List α) : (sink key j l).length = l.length := by
  induction j generalizing l with
  | zero => rfl
  | succ j ih =>
    rw [sink]
    split
    · split_ifs
      · rw [ih, List.length_set, List.length_set]
      · rfl
    · rfl

@[simp] theorem sinkAll_length (count i : Nat) (l : List α) :
    (sinkAll key count i l).length = l.length := by
  induction count generalizing i l with
  | zero => rfl
  | succ count ih => rw [sinkAll, ih, sink_length]

@[simp] theorem sortPrefix_length (n : Nat) (l : List α) :
    (sortPrefix key n l).length = l.length := sinkAll_length key n 0 l

/-- The order in which an insertion from the back meets the elements. -/
abbrev NotBelow (a b : α) : Prop := key b ≤ key a

instance : Std.Total (NotBelow key) := ⟨fun a b => le_total (key b) (key a)⟩

instance : IsTrans α (NotBelow key) := ⟨fun _ _ _ hab hbc => hbc.trans hab⟩

/-- The sorted list, equal keys in their old order. -/
def stableSort (l : List α) : List α := (l.reverse.insertionSort (NotBelow key)).reverse

/-- `l'` is `l` sorted by `key`, equal keys in their old order. -/
structure StableSorted (l l' : List α) : Prop where
  perm : l'.Perm l
  sorted : l'.Pairwise fun a b => key a ≤ key b
  stable : ∀ k, l'.filter (fun a => key a = k) = l.filter (fun a => key a = k)

theorem sink_eq (xs : List α) (x : α) (ys : List α) :
    sink key xs.length (xs ++ x :: ys) =
      (xs.reverse.orderedInsert (NotBelow key) x).reverse ++ ys := by
  induction xs using List.reverseRecOn generalizing ys with
  | nil => simp [sink]
  | append_singleton xs w ih =>
    have hprev : (xs ++ [w] ++ x :: ys)[xs.length]? = some w := by simp
    have hcur : (xs ++ [w] ++ x :: ys)[xs.length + 1]? = some x := by simp
    rw [List.length_append, List.length_singleton, sink, hprev, hcur, List.reverse_append,
      List.reverse_singleton, List.singleton_append, List.orderedInsert_cons]
    dsimp only
    by_cases hlt : key x < key w
    · have hswap : ((xs ++ [w] ++ x :: ys).set (xs.length + 1) w).set xs.length x =
          xs ++ x :: w :: ys := by simp
      rw [if_pos hlt, if_neg (not_le.mpr hlt), hswap, ih, List.reverse_cons, List.append_assoc,
        List.singleton_append]
    · rw [if_neg hlt, if_pos (not_lt.mp hlt)]
      simp

theorem stableSort_concat (xs : List α) (x : α) :
    stableSort key (xs ++ [x]) =
      ((stableSort key xs).reverse.orderedInsert (NotBelow key) x).reverse := by
  rw [stableSort, stableSort, List.reverse_append, List.reverse_singleton, List.singleton_append,
    List.insertionSort_cons, List.reverse_reverse]

@[simp] theorem stableSort_length (l : List α) : (stableSort key l).length = l.length := by
  simp [stableSort]

/-- Sinking the next element extends the sorted prefix by it. -/
theorem sink_stableSort (xs : List α) (x : α) (ys : List α) :
    sink key xs.length (stableSort key xs ++ x :: ys) = stableSort key (xs ++ [x]) ++ ys := by
  have h := sink_eq key (stableSort key xs) x ys
  rwa [stableSort_length, ← stableSort_concat] at h

theorem sinkAll_stableSort (xs zs ys : List α) :
    sinkAll key zs.length xs.length (stableSort key xs ++ (zs ++ ys)) =
      stableSort key (xs ++ zs) ++ ys := by
  induction zs generalizing xs with
  | nil => simp [sinkAll]
  | cons z zs ih =>
    have h := ih (xs ++ [z])
    rw [List.length_append, List.length_singleton, List.append_assoc, List.singleton_append] at h
    rw [List.length_cons, sinkAll, List.cons_append, sink_stableSort, h]

theorem sortPrefix_eq {n : Nat} {l : List α} (hn : n ≤ l.length) :
    sortPrefix key n l = stableSort key (l.take n) ++ l.drop n := by
  have h := sinkAll_stableSort key [] (l.take n) (l.drop n)
  rw [List.take_append_drop, List.length_take_of_le hn] at h
  exact h

theorem stableSort_perm (l : List α) : (stableSort key l).Perm l :=
  (List.reverse_perm _).trans ((List.perm_insertionSort _ _).trans (List.reverse_perm l))

theorem stableSort_sorted (l : List α) :
    (stableSort key l).Pairwise fun a b => key a ≤ key b :=
  List.pairwise_reverse.mpr (List.pairwise_insertionSort (NotBelow key) l.reverse)

/-- The elements with one key keep their order. -/
theorem stableSort_filter (l : List α) (k : κ) :
    (stableSort key l).filter (fun a => key a = k) = l.filter (fun a => key a = k) := by
  have hpair : (l.reverse.filter fun a => key a = k).Pairwise (NotBelow key) := by
    apply List.pairwise_of_forall_mem_list
    intro a ha b hb
    have hka : key a = k := by simpa using (List.mem_filter.mp ha).2
    have hkb : key b = k := by simpa using (List.mem_filter.mp hb).2
    exact (hkb.trans hka.symm).le
  have hsub := (List.sublist_insertionSort hpair List.filter_sublist).reverse
  rw [← List.filter_reverse, List.reverse_reverse] at hsub
  have hkeep := hsub.filter fun a => key a = k
  rw [List.filter_filter] at hkeep
  simp only [Bool.and_self] at hkeep
  exact (hkeep.eq_of_length ((stableSort_perm key l).filter _).length_eq.symm).symm

theorem stableSort_spec (l : List α) : StableSorted key l (stableSort key l) :=
  ⟨stableSort_perm key l, stableSort_sorted key l, stableSort_filter key l⟩

/-- `a` is the first of the elements with `p` whose key is least among them. -/
def FirstLeast (p : α → Bool) (l : List α) (a : α) : Prop :=
  p a ∧ ∃ pre post, l = pre ++ a :: post ∧ (∀ x ∈ pre, p x → key a < key x) ∧
    ∀ x ∈ post, p x → key a ≤ key x

theorem find?_sorted {p : α → Bool} {l : List α} {a : α}
    (hs : l.Pairwise fun a b => key a ≤ key b) (h : l.find? p = some a) :
    (∀ x ∈ l, p x → key a ≤ key x) ∧ (l.filter fun x => key x = key a).find? p = some a := by
  obtain ⟨hp, pre, post, rfl, hpre⟩ := List.find?_eq_some_iff_append.mp h
  have hpost := (List.pairwise_append.mp hs).2.1
  constructor
  · intro x hx hpx
    rcases List.mem_append.mp hx with hx | hx
    · have hno := hpre x hx
      simp [hpx] at hno
    · rcases List.mem_cons.mp hx with rfl | hx
      · exact le_refl _
      · exact List.rel_of_pairwise_cons hpost hx
  · rw [List.find?_filter]
    apply List.find?_eq_some_iff_append.mpr
    refine ⟨by simpa using hp, pre, post, rfl, ?_⟩
    intro x hx
    have hno := hpre x hx
    simp only [Bool.not_eq_true'] at hno
    simp [hno]

/-- The first element with `p` of the sorted list is the first least one of the list itself. -/
theorem find?_stableSort {p : α → Bool} {l : List α} {a : α}
    (h : (stableSort key l).find? p = some a) : FirstLeast key p l a := by
  obtain ⟨hleast, hfirst⟩ := find?_sorted key (stableSort_sorted key l) h
  have hbound : ∀ x ∈ l, p x → key a ≤ key x := by
    intro x hx
    exact hleast x ((stableSort_perm key l).mem_iff.mpr hx)
  rw [stableSort_filter, List.find?_filter] at hfirst
  obtain ⟨hp, pre, post, hl, hpre⟩ := List.find?_eq_some_iff_append.mp hfirst
  refine ⟨List.find?_some h, pre, post, hl, ?_, ?_⟩
  · intro x hx hpx
    have hle := hbound x (by simp [hl, hx]) hpx
    have hno := hpre x hx
    have hne : key x ≠ key a := by simpa [hpx] using hno
    exact lt_of_le_of_ne hle hne.symm
  · intro x hx
    exact hbound x (by simp [hl, hx])

theorem find?_stableSort_none {p : α → Bool} {l : List α} :
    (stableSort key l).find? p = none ↔ ∀ x ∈ l, ¬ p x := by
  simp only [List.find?_eq_none, (stableSort_perm key l).mem_iff]

theorem stableSort_of_sorted {l : List α} (h : l.Pairwise fun a b => key a ≤ key b) :
    stableSort key l = l := by
  have hr : l.reverse.Pairwise (NotBelow key) := List.pairwise_reverse.mpr h
  rw [stableSort, hr.insertionSort_eq, List.reverse_reverse]

theorem sortPrefix_take {n : Nat} {l : List α} (hn : n ≤ l.length) :
    (sortPrefix key n l).take n = stableSort key (l.take n) := by
  rw [sortPrefix_eq key hn, List.take_left' (by simp [hn])]

theorem sortPrefix_drop {n : Nat} {l : List α} (hn : n ≤ l.length) :
    (sortPrefix key n l).drop n = l.drop n := by
  rw [sortPrefix_eq key hn, List.drop_left' (by simp [hn])]

/-- Sorting sees the keys only. -/
theorem stableSort_map {β : Type} (f : β → α) (l : List β) :
    stableSort key (l.map f) = (stableSort (key ∘ f) l).map f := by
  have hins : (l.reverse.insertionSort (NotBelow (key ∘ f))).map f =
      (l.reverse.map f).insertionSort (NotBelow key) := by
    apply List.map_insertionSort
    intro a _ b _
    exact Iff.rfl
  rw [stableSort, stableSort, ← List.map_reverse, ← hins, List.map_reverse]

/-- `l` with `f` applied to its first `n` elements. -/
def mapFirst (f : α → α) (n : Nat) (l : List α) : List α := (l.take n).map f ++ l.drop n

@[simp] theorem mapFirst_length (f : α → α) (n : Nat) (l : List α) :
    (mapFirst f n l).length = l.length := by
  simp [mapFirst]
  omega

theorem mapFirst_next (f : α → α) {n : Nat} {l : List α} (hn : n < l.length) :
    (mapFirst f n l)[n]? = some l[n] := by
  simp [mapFirst, hn.le, hn]

theorem mapFirst_set (f : α → α) {n : Nat} {l : List α} (hn : n < l.length) :
    (mapFirst f n l).set n (f l[n]) = mapFirst f (n + 1) l := by
  rw [mapFirst, mapFirst, List.drop_eq_getElem_cons hn, List.take_succ_eq_append_getElem hn,
    List.map_append, List.append_assoc, List.set_append_right _ _ (by simp)]
  simp only [List.length_map, List.length_take_of_le hn.le, Nat.sub_self, List.set_cons_zero]
  rfl

/-- Apply `f` to the first `n` elements, then sort these. -/
def refresh (f : α → α) (n : Nat) (l : List α) : List α := sortPrefix key n (mapFirst f n l)

@[simp] theorem refresh_length (f : α → α) (n : Nat) (l : List α) :
    (refresh key f n l).length = l.length := by
  rw [refresh, sortPrefix_length, mapFirst_length]

section Refresh

variable {key} {f : α → α} {n : Nat} {l : List α} (hn : n ≤ l.length)

include hn

theorem refresh_take :
    (refresh key f n l).take n = stableSort key ((l.take n).map f) := by
  rw [refresh, sortPrefix_take key (by simpa using hn), mapFirst, List.take_left' (by simp [hn])]

theorem refresh_drop : (refresh key f n l).drop n = l.drop n := by
  rw [refresh, sortPrefix_drop key (by simpa using hn), mapFirst, List.drop_left' (by simp [hn])]

theorem refresh_eq :
    refresh key f n l = stableSort key ((l.take n).map f) ++ l.drop n := by
  have hdrop : (refresh key f n l).drop n = l.drop n := refresh_drop hn
  rw [← refresh_take hn, ← hdrop, List.take_append_drop]

theorem mem_refresh {a : α} :
    a ∈ refresh key f n l ↔ (∃ b ∈ l.take n, f b = a) ∨ a ∈ l.drop n := by
  rw [refresh_eq hn, List.mem_append, (stableSort_perm key _).mem_iff, List.mem_map]

/-- What lies behind a cut has no part in the sort. -/
theorem refresh_cut {m : Nat} (hm : n ≤ m) :
    (refresh key f n l).take m = refresh key f n (l.take m) := by
  have hcut : n ≤ (l.take m).length := by
    rw [List.length_take]
    omega
  have hlen : (stableSort key ((l.take n).map f)).length = n := by simp [hn]
  rw [refresh_eq hn, refresh_eq hcut, List.take_append, hlen, List.take_take, Nat.min_eq_left hm,
    List.take_of_length_le (by rwa [hlen]), List.drop_take]

theorem refresh_of_sorted (hf : ∀ a ∈ l.take n, f a = a)
    (hs : (l.take n).Pairwise fun a b => key a ≤ key b) : refresh key f n l = l := by
  rw [refresh_eq hn, List.map_congr_left hf, List.map_id', stableSort_of_sorted key hs,
    List.take_append_drop]

theorem refresh_refresh (hf : ∀ a ∈ l.take n, f a = a) :
    refresh key f n (refresh key f n l) = refresh key f n l := by
  have hmap : (l.take n).map f = l.take n := by rw [List.map_congr_left hf, List.map_id']
  apply refresh_of_sorted (by simpa using hn)
  · intro a ha
    rw [refresh_take hn, hmap, (stableSort_perm key _).mem_iff] at ha
    exact hf a ha
  · rw [refresh_take hn]
    exact stableSort_sorted key _

end Refresh

theorem refresh_map {β : Type} {f : α → α} {f' : β → β} {g : β → α} {n : Nat} {l : List β}
    (hn : n ≤ l.length) (hg : ∀ b, g (f' b) = f (g b)) :
    (refresh (key ∘ g) f' n l).map g = refresh key f n (l.map g) := by
  have hcomp : g ∘ f' = f ∘ g := funext hg
  rw [refresh_eq hn, refresh_eq (by simpa using hn), List.map_append, ← stableSort_map,
    ← List.map_take, ← List.map_drop, List.map_map, List.map_map, hcomp]

end PeerToPeer.Sorting
