import Mathlib.Data.List.Perm.Subperm
import Mathlib.Data.List.Sort
import Mathlib.Logic.Relation
import WireSchema.TypeTable.Graph

/-!
# Strongly connected components

The places that are found from a place by adding what is referred to are those at the end of a path
of references (`mem_reached_iff`).  Lists of places are the components of a graph when each place
stands in one of them, once, together with what it reaches and what reaches it (`IsComponents`), and
such are those that are computed (`isComponents_components`).

In whatever order components and their places are listed, those with a cycle come out the same: the
first of them is that of the first place on a cycle (`head?_cycles`).
-/

namespace WireSchema

open Relation

theorem nodup_eraseDups {α : Type} [BEq α] [LawfulBEq α] (l : List α) : l.eraseDups.Nodup := by
  induction hn : l.length using Nat.strongRecOn generalizing l with
  | ind n ih =>
    cases l with
    | nil => exact List.nodup_nil
    | cons a rest =>
      rw [List.eraseDups_cons, List.nodup_cons]
      refine ⟨by simp [List.mem_eraseDups], ih _ ?_ _ rfl⟩
      have := List.length_filter_le (fun b => !b == a) rest
      rw [List.length_cons] at hn
      omega

namespace Ascending

section Sorting

variable {α : Type} (less : α → α → Bool)

theorem ofList_eq_insertionSort (l : List α) :
    ofList less l = l.insertionSort fun a b => less b a = false := by
  have hinsert (a : α) (l : List α) :
      insert less a l = l.orderedInsert (fun a b => less b a = false) a := by
    induction l with
    | nil => rfl
    | cons b rest ih =>
      rw [insert, List.orderedInsert_cons, ih]
      cases less b a <;> rfl
  induction l with
  | nil => rfl
  | cons a rest ih => rw [ofList, List.insertionSort_cons, ih, hinsert]

theorem perm_ofList (l : List α) : (ofList less l).Perm l := by
  rw [ofList_eq_insertionSort]
  exact List.perm_insertionSort _ l

theorem pairwise_ofList (htotal : ∀ a b, less b a = false ∨ less a b = false)
    (htrans : ∀ a b c, less b a = false → less c b = false → less c a = false) (l : List α) :
    (ofList less l).Pairwise fun a b => less b a = false := by
  have : Std.Total fun a b => less b a = false := ⟨htotal⟩
  have : IsTrans α fun a b => less b a = false := ⟨htrans⟩
  rw [ofList_eq_insertionSort]
  exact List.pairwise_insertionSort _ l

end Sorting

/-- Places are sorted by their numbers. -/
theorem pairwise_places (places : List Nat) :
    (ofList (fun i j => decide (i < j)) places).Pairwise (· ≤ ·) := by
  refine (pairwise_ofList _ (fun i j => ?_) (fun i j k => ?_) places).imp fun h => ?_
  · simp only [decide_eq_false_iff_not]
    omega
  · simp only [decide_eq_false_iff_not]
    omega
  · simpa using h

/-- Lists of places are sorted like the words of a dictionary. -/
theorem pairwise_lists (lists : List (List Nat)) :
    (ofList (fun a b => a.lex b) lists).Pairwise fun a b => b.lex a = false := by
  refine pairwise_ofList _ (fun a b => ?_) (fun a b c => ?_) lists
  · simp only [List.lex_eq_false_iff_ge]
    exact List.le_total a b
  · simp only [List.lex_eq_false_iff_ge]
    exact List.le_trans

end Ascending

namespace TypeGraph

variable {g : TypeGraph}

/-! ## Places that are reached -/

/-- One place refers to another. -/
def Refers (g : TypeGraph) (i j : Nat) : Prop := j ∈ g.next i

/-- What the places refer to is among them. -/
def Closed (g : TypeGraph) (places : List Nat) : Prop :=
  ∀ i ∈ places, ∀ j ∈ g.next i, j ∈ places

/-- The places that a round adds. -/
theorem mem_added {seen : List Nat} {j : Nat} :
    (j ∈ (seen.flatMap g.next).eraseDups.filter fun i => !seen.contains i) ↔
      (∃ i ∈ seen, j ∈ g.next i) ∧ j ∉ seen := by
  rw [List.mem_filter, List.mem_eraseDups, List.mem_flatMap]
  simp

/-- What the places at the start of a round have and every reference passes on, the places behind it
have. -/
theorem round_induction {P : Nat → Prop} (hstep : ∀ i, P i → ∀ j ∈ g.next i, P j)
    {seen : List Nat} (h : ∀ i ∈ seen, P i) :
    ∀ j ∈ seen ++ (seen.flatMap g.next).eraseDups.filter fun i => !seen.contains i, P j := by
  intro j hj
  rcases List.mem_append.mp hj with hj | hj
  · exact h j hj
  · obtain ⟨⟨i, hi, hij⟩, -⟩ := mem_added.mp hj
    exact hstep i (h i hi) j hij

/-- What the places at the start have and every reference passes on, all added places have. -/
theorem saturate_induction {P : Nat → Prop} (hstep : ∀ i, P i → ∀ j ∈ g.next i, P j) {n : Nat}
    {seen : List Nat} (h : ∀ i ∈ seen, P i) : ∀ j ∈ g.saturate n seen, P j := by
  induction n generalizing seen with
  | zero => exact h
  | succ n ih =>
    unfold saturate
    dsimp only
    split
    · exact h
    · exact ih (round_induction hstep h)

/-- Saturating adds nothing that is not in every closed list around the start. -/
theorem saturate_subset {places : List Nat} (hc : g.Closed places) {n : Nat} {seen : List Nat}
    (h : seen ⊆ places) : g.saturate n seen ⊆ places := fun j hj =>
  saturate_induction (P := (· ∈ places)) hc (fun _ hi => h hi) j hj

theorem subset_saturate (g : TypeGraph) (n : Nat) (seen : List Nat) :
    seen ⊆ g.saturate n seen := by
  induction n generalizing seen with
  | zero => exact fun _ hj => hj
  | succ n ih =>
    unfold saturate
    dsimp only
    split
    · exact fun _ hj => hj
    · exact fun j hj => ih _ (List.mem_append_left _ hj)

/-- One round keeps the places distinct. -/
theorem nodup_round {seen : List Nat} (h : seen.Nodup) :
    (seen ++ (seen.flatMap g.next).eraseDups.filter fun i => !seen.contains i).Nodup := by
  rw [List.nodup_append]
  refine ⟨h, (nodup_eraseDups _).filter _, ?_⟩
  rintro i hi j hj rfl
  exact (mem_added.mp hj).2 hi

theorem nodup_saturate {n : Nat} {seen : List Nat} (h : seen.Nodup) :
    (g.saturate n seen).Nodup := by
  induction n generalizing seen with
  | zero => exact h
  | succ n ih =>
    unfold saturate
    dsimp only
    split
    · exact h
    · exact ih (nodup_round h)

/-- As many rounds as there are places are enough: each but the last adds a place. -/
theorem closed_saturate {places : List Nat} (hc : g.Closed places) {n : Nat} {seen : List Nat}
    (hd : seen.Nodup) (hs : seen ⊆ places) (hn : places.length ≤ n + seen.length) :
    g.Closed (g.saturate n seen) := by
  induction n generalizing seen with
  | zero =>
    have hperm := (hd.subperm hs).perm_of_length_le (by omega)
    exact fun i hi j hj => hperm.symm.subset (hc i (hs hi) j hj)
  | succ n ih =>
    unfold saturate
    dsimp only
    split
    · rename_i hempty
      intro i hi j hj
      by_contra hnot
      have hmem := mem_added.mpr ⟨⟨i, hi, hj⟩, hnot⟩
      rw [List.isEmpty_iff.mp hempty] at hmem
      cases hmem
    · rename_i hempty
      have hpos : 0 < ((seen.flatMap g.next).eraseDups.filter fun i =>
          !seen.contains i).length := by
        rw [List.length_pos_iff]
        exact fun h => hempty (List.isEmpty_iff.mpr h)
      refine ih (nodup_round hd) ?_ (by rw [List.length_append]; omega)
      exact round_induction (P := (· ∈ places)) hc fun _ hi => hs hi

theorem next_subset_reached (g : TypeGraph) (i : Nat) : g.next i ⊆ g.reached i :=
  fun _ hj => subset_saturate g _ _ (List.mem_eraseDups.mpr hj)

theorem nodup_reached (g : TypeGraph) (i : Nat) : (g.reached i).Nodup :=
  nodup_saturate (nodup_eraseDups _)

/-- What is referred to are places of the graph. -/
def Internal (g : TypeGraph) : Prop := ∀ i, ∀ j ∈ g.next i, j < g.size

theorem Internal.closed (h : g.Internal) : g.Closed (List.range g.size) :=
  fun i _ j hj => List.mem_range.mpr (h i j hj)

theorem Internal.next_subset (h : g.Internal) (i : Nat) :
    (g.next i).eraseDups ⊆ List.range g.size :=
  fun j hj => List.mem_range.mpr (h i j (List.mem_eraseDups.mp hj))

theorem reached_subset (h : g.Internal) (i : Nat) : g.reached i ⊆ List.range g.size :=
  saturate_subset h.closed (h.next_subset i)

theorem closed_reached (h : g.Internal) (i : Nat) : g.Closed (g.reached i) := by
  refine closed_saturate h.closed (nodup_eraseDups _) (h.next_subset i) ?_
  rw [List.length_range]
  omega

/-- What is found from a place stands at the end of a path of references, and the other way
round. -/
theorem mem_reached_iff (h : g.Internal) {i j : Nat} :
    j ∈ g.reached i ↔ TransGen g.Refers i j := by
  constructor
  · refine saturate_induction (P := TransGen g.Refers i) (fun x hx y hy => hx.tail hy) ?_ j
    intro x hx
    exact .single (List.mem_eraseDups.mp hx)
  · intro hij
    induction hij with
    | single hij => exact next_subset_reached g i hij
    | tail _ hjk ih => exact closed_reached h i _ ih _ hjk

/-- No place reaches itself. -/
def Acyclic (g : TypeGraph) : Prop := ∀ i < g.size, i ∉ g.reached i

/-- Fewer places are reached after each reference. -/
theorem length_reached_lt (hg : g.Internal) (ha : g.Acyclic) {i j : Nat} (hij : j ∈ g.next i) :
    (g.reached j).length < (g.reached i).length := by
  have hj : j ∉ g.reached j := ha j (hg i j hij)
  have hd : (j :: g.reached j).Nodup := List.nodup_cons.mpr ⟨hj, nodup_reached g j⟩
  have hs : j :: g.reached j ⊆ g.reached i := by
    refine List.cons_subset.mpr ⟨next_subset_reached g i hij, fun k hk => ?_⟩
    rw [mem_reached_iff hg] at hk ⊢
    exact .head hij hk
  exact (hd.subperm hs).length_le

/-- A place and what it reaches are places of the graph. -/
theorem length_reached_lt_size (hg : g.Internal) (ha : g.Acyclic) {i : Nat} (hi : i < g.size) :
    (g.reached i).length < g.size := by
  have hd : (i :: g.reached i).Nodup := List.nodup_cons.mpr ⟨ha i hi, nodup_reached g i⟩
  have hs : i :: g.reached i ⊆ List.range g.size :=
    List.cons_subset.mpr ⟨List.mem_range.mpr hi, reached_subset hg i⟩
  have hle := (hd.subperm hs).length_le
  rwa [List.length_cons, List.length_range] at hle

/-! ## Components -/

/-- Each of two places is the other or reaches it. -/
def Connected (g : TypeGraph) (i j : Nat) : Prop :=
  ReflTransGen g.Refers i j ∧ ReflTransGen g.Refers j i

theorem Connected.refl (g : TypeGraph) (i : Nat) : g.Connected i i := ⟨.refl, .refl⟩

theorem Connected.symm {i j : Nat} (h : g.Connected i j) : g.Connected j i := ⟨h.2, h.1⟩

theorem Connected.trans {i j k : Nat} (hij : g.Connected i j) (hjk : g.Connected j k) :
    g.Connected i k := ⟨hij.1.trans hjk.1, hjk.2.trans hij.2⟩

/-- Lists of places are the strongly connected components of a graph: each place stands in one of
them, once, and two places stand in the same one when they are connected. -/
structure IsComponents (g : TypeGraph) (components : List (List Nat)) : Prop where
  nonempty : ∀ c ∈ components, c ≠ []
  places : components.flatten.Perm (List.range g.size)
  connected : ∀ c ∈ components, ∀ i ∈ c, ∀ j < g.size, j ∈ c ↔ g.Connected i j

/-- What is connected with a place, in order. -/
def component (g : TypeGraph) (i : Nat) : List Nat :=
  (List.range g.size).filter fun j =>
    i == j || ((g.reached i).contains j && (g.reached j).contains i)

theorem components_eq (g : TypeGraph) :
    g.components = ((List.range g.size).map g.component).eraseDups := by
  unfold components component
  simp only [List.map_map, List.filter_map, Function.comp_def, List.map_id']

theorem connected_iff (hg : g.Internal) {i j : Nat} :
    (i == j || ((g.reached i).contains j && (g.reached j).contains i)) = true ↔
      g.Connected i j := by
  rw [Bool.or_eq_true, Bool.and_eq_true, beq_iff_eq, List.contains_iff_mem, List.contains_iff_mem,
    mem_reached_iff hg, mem_reached_iff hg, Connected, reflTransGen_iff_eq_or_transGen,
    reflTransGen_iff_eq_or_transGen]
  tauto

theorem mem_component (hg : g.Internal) {i j : Nat} :
    j ∈ g.component i ↔ j < g.size ∧ g.Connected i j := by
  rw [component, List.mem_filter, List.mem_range, connected_iff hg]

theorem component_eq (hg : g.Internal) {i j : Nat} (h : g.Connected i j) :
    g.component i = g.component j := by
  refine List.filter_congr fun k _ => Bool.eq_iff_iff.mpr ?_
  rw [connected_iff hg, connected_iff hg]
  exact ⟨h.symm.trans, h.trans⟩

theorem nodup_component (g : TypeGraph) (i : Nat) : (g.component i).Nodup :=
  List.nodup_range.filter _

/-- The components that are computed are the components. -/
theorem isComponents_components (hg : g.Internal) : g.IsComponents g.components := by
  have hmem (c : List Nat) : c ∈ g.components ↔ ∃ i < g.size, g.component i = c := by
    simp [components_eq, List.mem_eraseDups]
  constructor
  · intro c hc
    obtain ⟨i, hi, rfl⟩ := (hmem c).mp hc
    exact List.ne_nil_of_mem ((mem_component hg).mpr ⟨hi, .refl g i⟩)
  · have hdisjoint : g.components.Pairwise List.Disjoint := by
      have hne : g.components.Pairwise (· ≠ ·) := components_eq g ▸ nodup_eraseDups _
      refine hne.imp_of_mem fun {c c'} hc hc' hne k hk hk' => hne ?_
      obtain ⟨i, -, rfl⟩ := (hmem c).mp hc
      obtain ⟨j, -, rfl⟩ := (hmem c').mp hc'
      rw [component_eq hg ((mem_component hg).mp hk).2,
        component_eq hg ((mem_component hg).mp hk').2]
    have hnodup : g.components.flatten.Nodup := by
      refine List.nodup_flatten.mpr ⟨fun c hc => ?_, hdisjoint⟩
      obtain ⟨i, -, rfl⟩ := (hmem c).mp hc
      exact nodup_component g i
    refine (List.perm_ext_iff_of_nodup hnodup List.nodup_range).mpr fun i => ?_
    rw [List.mem_flatten, List.mem_range]
    constructor
    · rintro ⟨c, hc, hi⟩
      obtain ⟨j, -, rfl⟩ := (hmem c).mp hc
      exact ((mem_component hg).mp hi).1
    · intro hi
      exact ⟨_, (hmem _).mpr ⟨i, hi, rfl⟩, (mem_component hg).mpr ⟨hi, .refl g i⟩⟩
  · intro c hc i hi j hj
    obtain ⟨k, -, rfl⟩ := (hmem c).mp hc
    have hki := ((mem_component hg).mp hi).2
    rw [mem_component hg]
    exact ⟨fun h => hki.symm.trans h.2, fun h => ⟨hj, hki.trans h⟩⟩

/-! ## Components with a cycle -/

theorem Connected.cyclic {i j : Nat} (h : g.Connected i j) (hi : TransGen g.Refers i i) :
    TransGen g.Refers j j :=
  (hi.trans_left h.1).trans_right h.2

/-- What lies on cycles with a place, in order. -/
def cycleOf (g : TypeGraph) (i : Nat) : List Nat :=
  (List.range g.size).filter fun j => (g.reached i).contains j && (g.reached j).contains i

theorem mem_cycleOf (hg : g.Internal) {i j : Nat} :
    j ∈ g.cycleOf i ↔ TransGen g.Refers i j ∧ TransGen g.Refers j i := by
  rw [cycleOf, List.mem_filter, Bool.and_eq_true, List.contains_iff_mem, List.contains_iff_mem,
    mem_reached_iff hg, mem_reached_iff hg]
  refine ⟨And.right, fun h => ⟨?_, h⟩⟩
  exact reached_subset hg i ((mem_reached_iff hg).mpr h.1)

theorem nodup_cycleOf (g : TypeGraph) (i : Nat) : (g.cycleOf i).Nodup := List.nodup_range.filter _

theorem cycleOf_eq (hg : g.Internal) {i j : Nat} (h : j ∈ g.cycleOf i) :
    g.cycleOf j = g.cycleOf i := by
  obtain ⟨hij, hji⟩ := (mem_cycleOf hg).mp h
  refine List.filter_congr fun k _ => Bool.eq_iff_iff.mpr ?_
  simp only [Bool.and_eq_true, List.contains_iff_mem, mem_reached_iff hg]
  exact ⟨fun h => ⟨hij.trans h.1, h.2.trans hji⟩, fun h => ⟨hji.trans h.1, h.2.trans hij⟩⟩

section First

variable {first : Nat} (hg : g.Internal) (hcycle : TransGen g.Refers first first)
  (hleast : ∀ i, TransGen g.Refers i i → first ≤ i)

include hg hcycle hleast

/-- What lies on cycles with the first place on a cycle begins with it. -/
theorem cycleOf_eq_cons : ∃ tail, g.cycleOf first = first :: tail := by
  rw [← List.head?_eq_some_iff, cycleOf, List.head?_filter, List.find?_range_eq_some]
  simp only [Bool.and_eq_true, List.contains_iff_mem, mem_reached_iff hg, Bool.not_eq_true',
    Bool.eq_false_iff, Ne]
  refine ⟨⟨hcycle, hcycle⟩, reached_subset hg first ((mem_reached_iff hg).mpr hcycle), ?_⟩
  exact fun i hi hboth => absurd (hleast i (hboth.2.trans hboth.1)) (by omega)

/-- Lists are compared by their first places, and no place on a cycle is before the first. -/
theorem cycleOf_eq_of_le {i : Nat} (hi : TransGen g.Refers i i)
    (hle : (g.cycleOf first).lex (g.cycleOf i) = false) : g.cycleOf i = g.cycleOf first := by
  obtain ⟨tail, hstart⟩ := cycleOf_eq_cons hg hcycle hleast
  cases hplaces : g.cycleOf i with
  | nil => exact absurd ((mem_cycleOf hg).mpr ⟨hi, hi⟩) (by simp [hplaces])
  | cons a others =>
    have ha : a ∈ g.cycleOf i := hplaces ▸ List.mem_cons_self
    obtain ⟨hia, hai⟩ := (mem_cycleOf hg).mp ha
    have hfirst := hleast a (hai.trans hia)
    rw [hplaces, hstart, List.cons_lex_cons] at hle
    have hnot : ¬ first < a := fun hlt => by simp [hlt] at hle
    obtain rfl : a = first := by omega
    rw [← hplaces, cycleOf_eq hg ha]

end First

namespace IsComponents

variable {cs : List (List Nat)} (h : g.IsComponents cs)

include h

theorem lt_size {c : List Nat} (hc : c ∈ cs) {i : Nat} (hi : i ∈ c) : i < g.size :=
  List.mem_range.mp (h.places.subset (List.mem_flatten.mpr ⟨c, hc, hi⟩))

theorem exists_mem {i : Nat} (hi : i < g.size) : ∃ c ∈ cs, i ∈ c :=
  List.mem_flatten.mp (h.places.symm.subset (List.mem_range.mpr hi))

theorem nodup {c : List Nat} (hc : c ∈ cs) : c.Nodup :=
  (List.nodup_flatten.mp (h.places.nodup_iff.mpr List.nodup_range)).1 c hc

/-- A component has several places, or one that refers to itself, exactly when its places lie on
cycles. -/
theorem hasCycle_iff (hg : g.Internal) {c : List Nat} (hc : c ∈ cs) {i : Nat} (hi : i ∈ c) :
    (decide (1 < c.length) || c.head?.any fun i => g.hasEdge i i) = true ↔
      TransGen g.Refers i i := by
  rw [Bool.or_eq_true, decide_eq_true_iff]
  constructor
  · rintro (hmany | hself)
    · obtain ⟨j, hj, hne⟩ : ∃ j ∈ c, j ≠ i := by
        by_contra hall
        push Not at hall
        have hsub : c ⊆ [i] := fun j hj => List.mem_singleton.mpr (hall j hj)
        have hle : c.length ≤ 1 := ((h.nodup hc).subperm hsub).length_le
        omega
      obtain ⟨hij, hji⟩ := (h.connected c hc i hi j (h.lt_size hc hj)).mp hj
      rcases reflTransGen_iff_eq_or_transGen.mp hij with heq | hij
      · exact absurd heq hne
      · exact hij.trans_left hji
    · obtain ⟨k, hk, hedge⟩ := (Option.any_eq_true _ _).mp hself
      have hmem : k ∈ c := List.mem_of_head? hk
      have hcycle : TransGen g.Refers k k := .single (List.contains_iff_mem.mp hedge)
      exact ((h.connected c hc k hmem i (h.lt_size hc hi)).mp hi).cyclic hcycle
  · intro hcycle
    -- the first step of the cycle stays in the component
    obtain ⟨j, hij, hji⟩ := TransGen.head'_iff.mp hcycle
    have hj : j ∈ c := (h.connected c hc i hi j (hg i j hij)).mpr ⟨.single hij, hji⟩
    match c, hi, hj with
    | [k], hi, hj =>
      obtain rfl := List.mem_singleton.mp hi
      obtain rfl := List.mem_singleton.mp hj
      exact .inr (List.contains_iff_mem.mpr hij)
    | _ :: _ :: _, _, _ => exact .inl (by simp)

/-- A component with a cycle holds what lies on cycles with any of its places. -/
theorem ofList_eq_cycleOf (hg : g.Internal) {c : List Nat} (hc : c ∈ cs) {i : Nat} (hi : i ∈ c)
    (hcycle : TransGen g.Refers i i) :
    Ascending.ofList (fun i j => decide (i < j)) c = g.cycleOf i := by
  have hperm : c.Perm (g.cycleOf i) := by
    refine (List.perm_ext_iff_of_nodup (h.nodup hc) (nodup_cycleOf g i)).mpr fun j => ?_
    rw [mem_cycleOf hg]
    constructor
    · intro hj
      obtain ⟨hij, hji⟩ := (h.connected c hc i hi j (h.lt_size hc hj)).mp hj
      exact ⟨hcycle.trans_left hij, hcycle.trans_right hji⟩
    · rintro ⟨hij, hji⟩
      have hj := List.mem_range.mp (reached_subset hg i ((mem_reached_iff hg).mpr hij))
      exact (h.connected c hc i hi j hj).mpr ⟨hij.to_reflTransGen, hji.to_reflTransGen⟩
  have hsorted : (g.cycleOf i).Pairwise (· ≤ ·) :=
    (List.pairwise_lt_range.imp Nat.le_of_lt).filter _
  exact List.Perm.eq_of_pairwise (fun _ _ _ _ => Nat.le_antisymm)
    (Ascending.pairwise_places c) hsorted ((Ascending.perm_ofList _ c).trans hperm)

/-- The components with a cycle are what lies on cycles with the places on cycles. -/
theorem mem_cycles_iff (hg : g.Internal) {l : List Nat} :
    l ∈ g.cycles cs ↔ ∃ i, TransGen g.Refers i i ∧ g.cycleOf i = l := by
  unfold cycles
  dsimp only
  rw [(Ascending.perm_ofList _ _).mem_iff, List.mem_map]
  constructor
  · rintro ⟨c, hc, rfl⟩
    obtain ⟨hc, hfilter⟩ := List.mem_filter.mp hc
    obtain ⟨i, hi⟩ := List.exists_mem_of_ne_nil c (h.nonempty c hc)
    have hcycle := (h.hasCycle_iff hg hc hi).mp hfilter
    exact ⟨i, hcycle, (h.ofList_eq_cycleOf hg hc hi hcycle).symm⟩
  · rintro ⟨i, hcycle, rfl⟩
    have hlt := List.mem_range.mp (reached_subset hg i ((mem_reached_iff hg).mpr hcycle))
    obtain ⟨c, hc, hi⟩ := h.exists_mem hlt
    exact ⟨c, List.mem_filter.mpr ⟨hc, (h.hasCycle_iff hg hc hi).mpr hcycle⟩,
      h.ofList_eq_cycleOf hg hc hi hcycle⟩

/-- The first component with a cycle is that of the first place on a cycle. -/
theorem head?_cycles (hg : g.Internal) :
    (g.cycles cs).head? =
      ((List.range g.size).find? fun i => (g.reached i).contains i).map g.cycleOf := by
  have hmem {l : List Nat} := h.mem_cycles_iff hg (l := l)
  cases hfind : (List.range g.size).find? fun i => (g.reached i).contains i with
  | none =>
    have hnone := List.find?_eq_none.mp hfind
    have hempty : g.cycles cs = [] := by
      refine List.eq_nil_iff_forall_not_mem.mpr fun l hl => ?_
      obtain ⟨i, hcycle, -⟩ := hmem.mp hl
      have hi := (mem_reached_iff hg).mpr hcycle
      exact hnone i (reached_subset hg i hi) (List.contains_iff_mem.mpr hi)
    rw [hempty]
    rfl
  | some first =>
    obtain ⟨hfirst, -, hbefore⟩ := List.find?_range_eq_some.mp hfind
    have hcycle : TransGen g.Refers first first :=
      (mem_reached_iff hg).mp (List.contains_iff_mem.mp hfirst)
    have hleast (i : Nat) (hi : TransGen g.Refers i i) : first ≤ i := by
      by_contra hlt
      have hnot := hbefore i (by omega)
      rw [List.contains_iff_mem.mpr ((mem_reached_iff hg).mpr hi)] at hnot
      cases hnot
    have hthere : g.cycleOf first ∈ g.cycles cs := hmem.mpr ⟨first, hcycle, rfl⟩
    have hsorted : (g.cycles cs).Pairwise fun a b => b.lex a = false :=
      Ascending.pairwise_lists _
    cases hall : g.cycles cs with
    | nil => exact absurd hthere (by simp [hall])
    | cons least rest =>
      rw [hall] at hthere hsorted
      obtain ⟨i, hi, rfl⟩ := hmem.mp (hall ▸ List.mem_cons_self)
      have hle : (g.cycleOf first).lex (g.cycleOf i) = false := by
        rcases List.mem_cons.mp hthere with heq | hrest
        · rw [heq, List.lex_eq_false_iff_ge]
          exact List.le_refl _
        · exact List.rel_of_pairwise_cons hsorted hrest
      exact congrArg some (cycleOf_eq_of_le hg hcycle hleast hi hle)

end IsComponents

end TypeGraph

end WireSchema
