import Mathlib.Data.List.Dedup
import Mathlib.Data.List.Sort
import Mathlib.Data.Prod.Basic
import Mathlib.Order.Lattice

/-!
# Locality of linearizability

A finished history is a list of operations, each with the times at which it has been called and has
returned. It is **linearizable** for an object if the object takes its operations in some order, in
which none comes before one that had returned when it was called.

If each operation is one on one of many parts of the object, a history is linearizable exactly if
what it does to each part is (`linearizable_product_iff`). So a checker need not look for an order
of all operations. To put the orders of the parts together, each operation gets a point between its
call and its return, later in the order at no earlier a point (`exists_points`), and all are sorted
by their points.
-/

namespace CollabIde

namespace Locality

/-- An object that takes an operation, answer included, or does not. -/
structure Object (S O : Type) where
  init : S
  step : S → O → Option S

variable {S O K T : Type}

/-- One object for each part. -/
def Object.product [DecidableEq K] (M : Object S O) (part : O → K) : Object (K → S) O where
  init _ := M.init
  step s o := (M.step (s (part o)) o).map (Function.update s (part o))

/-- The object takes the operations one after the other. -/
def Object.Takes (M : Object S O) (s : S) (L : List O) : Prop := (L.foldlM M.step s).isSome = true

instance (M : Object S O) (s : S) (L : List O) : Decidable (M.Takes s L) :=
  inferInstanceAs (Decidable (_ = true))

section Takes

variable {M : Object S O} {s : S} {o : O} {L : List O}

theorem takes_nil : M.Takes s [] := rfl

theorem takes_cons : M.Takes s (o :: L) ↔ ∃ s', M.step s o = some s' ∧ M.Takes s' L := by
  unfold Object.Takes
  rw [List.foldlM_cons, Option.bind_eq_bind]
  cases M.step s o with
  | none => simp
  | some s' => simp

variable [DecidableEq K] {part : O → K}

/-- Each part takes its own operations. -/
theorem takes_product {s : K → S} :
    (M.product part).Takes s L ↔ ∀ k, M.Takes (s k) (L.filter (part · = k)) := by
  induction L generalizing s with
  | nil => exact ⟨fun _ _ => takes_nil, fun _ => takes_nil⟩
  | cons o L ih =>
    rw [takes_cons]
    constructor
    · rintro ⟨s', hstep, hrest⟩ k
      obtain ⟨t, ht, rfl⟩ := Option.map_eq_some_iff.mp hstep
      have hk := ih.mp hrest k
      by_cases hpart : part o = k
      · subst hpart
        rw [Function.update_self] at hk
        rw [List.filter_cons_of_pos (by simp), takes_cons]
        exact ⟨t, ht, hk⟩
      · rw [Function.update_of_ne (Ne.symm hpart)] at hk
        rw [List.filter_cons_of_neg (by simpa using hpart)]
        exact hk
    · intro h
      have ho := h (part o)
      rw [List.filter_cons_of_pos (by simp), takes_cons] at ho
      obtain ⟨t, ht, hrest⟩ := ho
      refine ⟨_, Option.map_eq_some_iff.mpr ⟨t, ht, rfl⟩, ih.mpr fun k => ?_⟩
      by_cases hpart : part o = k
      · subst hpart
        rw [Function.update_self]
        exact hrest
      · have hk := h k
        rw [List.filter_cons_of_neg (by simpa using hpart)] at hk
        rw [Function.update_of_ne (Ne.symm hpart)]
        exact hk

end Takes

variable [LinearOrder T] (call ret : O → T)

/-- `L` explains the history `H`. -/
structure Linearizes (M : Object S O) (H L : List O) : Prop where
  perm : L.Perm H
  ordered : L.Pairwise fun a b => ¬ ret b < call a
  takes : M.Takes M.init L

def Linearizable (M : Object S O) (H : List O) : Prop := ∃ L, Linearizes call ret M H L

variable {call ret} {M : Object S O} {H L : List O}

variable (call ret) in
/-- Points for the operations of an order. -/
theorem exists_points (hcall : ∀ o ∈ L, call o ≤ ret o)
    (hordered : L.Pairwise fun a b => ¬ ret b < call a) :
    ∃ P : List (O × T), P.map Prod.fst = L ∧ (P.Pairwise fun x y => x.2 ≤ y.2) ∧
      ∀ x ∈ P, call x.1 ≤ x.2 ∧ x.2 ≤ ret x.1 := by
  induction L with
  | nil => exact ⟨[], rfl, .nil, fun x hx => absurd hx List.not_mem_nil⟩
  | cons o L ih =>
    obtain ⟨hfirst, hordered⟩ := List.pairwise_cons.mp hordered
    obtain ⟨P, hP, hsorted, hpoints⟩ :=
      ih (fun o' ho' => hcall o' (List.mem_cons_of_mem o ho')) hordered
    -- the first one takes place as it is called, and no other one before that
    refine ⟨(o, call o) :: P.map fun x => (x.1, call o ⊔ x.2), ?_, ?_, fun x hx => ?_⟩
    · rw [List.map_cons, List.map_map]
      exact congrArg (o :: ·) hP
    · refine List.pairwise_cons.mpr ⟨fun x hx => ?_, ?_⟩
      · obtain ⟨y, -, rfl⟩ := List.mem_map.mp hx
        exact le_sup_left
      · refine List.pairwise_map.mpr (hsorted.imp fun hle => ?_)
        exact sup_le_sup_left hle _
    · obtain rfl | hx := List.mem_cons.mp hx
      · exact ⟨le_rfl, hcall o List.mem_cons_self⟩
      · obtain ⟨y, hy, rfl⟩ := List.mem_map.mp hx
        have hmem : y.1 ∈ L := hP ▸ List.mem_map_of_mem hy
        obtain ⟨hle, hge⟩ := hpoints y hy
        exact ⟨le_sup_of_le_right hle, sup_le (not_lt.mp (hfirst y.1 hmem)) hge⟩

variable [DecidableEq K] {part : O → K}

/-- The operations, part by part. -/
theorem flatten_filter_perm {ks : List K} (hnodup : ks.Nodup) (hmem : ∀ o ∈ H, part o ∈ ks) :
    (ks.map fun k => H.filter (part · = k)).flatten.Perm H := by
  induction H with
  | nil =>
    have hnil : (ks.map fun k => ([] : List O).filter (part · = k)).flatten = [] := by simp
    rw [hnil]
  | cons o H ih =>
    have ih := ih fun o' ho' => hmem o' (List.mem_cons_of_mem o ho')
    obtain ⟨l, r, rfl⟩ := List.append_of_mem (hmem o List.mem_cons_self)
    have hother {k : K} (hk : k ∈ l ∨ k ∈ r) :
        (o :: H).filter (part · = k) = H.filter (part · = k) := by
      refine List.filter_cons_of_neg ?_
      rw [decide_eq_true_eq]
      rintro rfl
      obtain ⟨-, hr, hdisjoint⟩ := List.nodup_append.mp hnodup
      obtain hk | hk := hk
      · exact hdisjoint _ hk _ List.mem_cons_self rfl
      · exact (List.nodup_cons.mp hr).1 hk
    have hl : (l.map fun k => (o :: H).filter (part · = k)) =
        l.map fun k => H.filter (part · = k) := List.map_congr_left fun k hk => hother (.inl hk)
    have hr : (r.map fun k => (o :: H).filter (part · = k)) =
        r.map fun k => H.filter (part · = k) := List.map_congr_left fun k hk => hother (.inr hk)
    rw [List.map_append, List.map_cons, List.flatten_append, List.flatten_cons] at ih ⊢
    rw [hl, hr, List.filter_cons_of_pos (by simp)]
    exact List.perm_middle.trans (ih.cons o)

variable (part) in
/-- What is sorted stays in its order when all is sorted. -/
theorem exists_merge {P : K → List (O × T)}
    (hperm : ∀ k, ((P k).map Prod.fst).Perm (H.filter (part · = k)))
    (hsorted : ∀ k, (P k).Pairwise fun x y => x.2 ≤ y.2) :
    ∃ Q : List (O × T), (Q.map Prod.fst).Perm H ∧ (Q.Pairwise fun x y => x.2 ≤ y.2) ∧
      (∀ x ∈ Q, ∃ k, x ∈ P k) ∧ ∀ k, (P k).Sublist Q := by
  let le (x y : O × T) : Bool := decide (x.2 ≤ y.2)
  have htrans (x y z : O × T) (hxy : le x y = true) (hyz : le y z = true) : le x z = true :=
    decide_eq_true ((of_decide_eq_true hxy).trans (of_decide_eq_true hyz))
  have htotal (x y : O × T) : (le x y || le y x) = true := by
    rw [Bool.or_eq_true, decide_eq_true_eq, decide_eq_true_eq]
    exact le_total _ _
  let ks := (H.map part).dedup
  have hmem (o : O) (ho : o ∈ H) : part o ∈ ks := List.mem_dedup.mpr (List.mem_map_of_mem ho)
  refine ⟨(ks.map P).flatten.mergeSort le, ?_, ?_, fun x hx => ?_, fun k => ?_⟩
  · refine ((List.mergeSort_perm _ le).map _).trans ?_
    rw [List.map_flatten, List.map_map]
    refine .trans (List.Perm.flatten_congr ?_) (flatten_filter_perm (List.nodup_dedup _) hmem)
    rw [List.forall₂_map_left_iff, List.forall₂_map_right_iff]
    exact List.forall₂_same.mpr fun k _ => hperm k
  · exact (List.pairwise_mergeSort htrans htotal _).imp of_decide_eq_true
  · obtain ⟨l, hl, hxl⟩ := List.mem_flatten.mp (List.mem_mergeSort.mp hx)
    obtain ⟨k, -, rfl⟩ := List.mem_map.mp hl
    exact ⟨k, hxl⟩
  · refine List.sublist_mergeSort htrans htotal ((hsorted k).imp decide_eq_true) ?_
    by_cases hk : k ∈ ks
    · exact List.sublist_flatten_of_mem (List.mem_map_of_mem hk)
    · have hnil : P k = [] := by
        refine List.eq_nil_iff_forall_not_mem.mpr fun x hx => hk ?_
        obtain ⟨ho, hpart⟩ := List.mem_filter.mp ((hperm k).subset (List.mem_map_of_mem hx))
        rw [← of_decide_eq_true hpart]
        exact hmem x.1 ho
      rw [hnil]
      exact List.nil_sublist _

/-- An order of all operations that has the operations of one part in the order `L`. -/
theorem filter_eq_of_sublist {k : K} {Q : List O} (hL : L.Perm (H.filter (part · = k)))
    (hQ : Q.Perm H) (hsub : L.Sublist Q) : Q.filter (part · = k) = L := by
  have hself : L.filter (part · = k) = L :=
    List.filter_eq_self.mpr fun o ho => (List.mem_filter.mp (hL.subset ho)).2
  have hsub := hsub.filter (part · = k)
  rw [hself] at hsub
  exact (hsub.eq_of_length (hL.trans (hQ.filter _).symm).length_eq).symm

/-- **Locality**: a history of operations on parts is linearizable if and only if the history of
each part is. -/
theorem linearizable_product_iff (hcall : ∀ o ∈ H, call o ≤ ret o) :
    Linearizable call ret (M.product part) H ↔
      ∀ k, Linearizable call ret M (H.filter (part · = k)) := by
  constructor
  · rintro ⟨L, hperm, hordered, htakes⟩ k
    exact ⟨L.filter (part · = k), hperm.filter _, hordered.filter _, takes_product.mp htakes k⟩
  intro h
  choose L hL using h
  have hpoints (k : K) := exists_points call ret
    (fun o ho => hcall o (List.mem_filter.mp ((hL k).perm.subset ho)).1) (hL k).ordered
  choose P hP hsorted hbounds using hpoints
  obtain ⟨Q, hperm, hordered, hmem, hsub⟩ :=
    exists_merge part (fun k => by rw [hP k]; exact (hL k).perm) hsorted
  refine ⟨Q.map Prod.fst, hperm, ?_, takes_product.mpr fun k => ?_⟩
  · -- a point is not before the call, nor after the return
    refine List.pairwise_map.mpr (hordered.imp_of_mem fun {x y} hx hy hle => ?_)
    obtain ⟨k, hxk⟩ := hmem x hx
    obtain ⟨l, hyl⟩ := hmem y hy
    exact not_lt.mpr ((hbounds k x hxk).1.trans (hle.trans (hbounds l y hyl).2))
  · have horder : (L k).Sublist (Q.map Prod.fst) := hP k ▸ (hsub k).map Prod.fst
    rw [filter_eq_of_sublist (hL k).perm hperm horder]
    exact (hL k).takes

end Locality

end CollabIde
