import Mathlib.Data.String.Basic
import WireSchema.Assoc

/-!
# Successful computations and tables

What every later module uses: taking a successful computation apart, finding an element by its key
(`find?_of_nodup`), and the theory of sorted association lists, of which the main statement is that
a sorted table is determined by what is looked up in it (`Assoc.ext`).
-/

namespace WireSchema

/-! ## Successful computations -/

theorem ok_bind {ε α β : Type} (a : α) (f : α → Except ε β) : (Except.ok a >>= f) = f a := rfl

theorem bind_of_eq_some {α β : Type} {o : Option α} {a : α} (h : o = some a) (f : α → Option β) :
    (o >>= f) = f a := by
  rw [h]
  rfl

/-- A computation that succeeds has successful parts. -/
theorem ok_of_bind {ε α β : Type} {x : Except ε α} {f : α → Except ε β} {b : β}
    (h : (x >>= f) = .ok b) : ∃ a, x = .ok a ∧ f a = .ok b := by
  cases x with
  | error e => cases h
  | ok a => exact ⟨a, rfl, h⟩

theorem map_of_bind {ε α β γ : Type} (x : Except ε α) (f : α → Except ε β) (g : β → γ) :
    (x >>= f).map g = x >>= fun a => (f a).map g := by
  cases x <;> rfl

theorem ok_of_map {ε α β : Type} {x : Except ε α} {f : α → β} {b : β} (h : x.map f = .ok b) :
    ∃ a, x = .ok a ∧ f a = b := by
  cases x with
  | error e => cases h
  | ok a => exact ⟨a, rfl, Except.ok.inj h⟩

theorem error_of_bind {ε α β : Type} {x : Except ε α} {f : α → Except ε β} {e : ε}
    (h : (x >>= f) = .error e) : x = .error e ∨ ∃ a, x = .ok a ∧ f a = .error e := by
  cases x with
  | error e' =>
    cases h
    exact .inl rfl
  | ok a => exact .inr ⟨a, rfl, h⟩

/-! ## Distinct keys -/

/-- With distinct keys an element is found by its key. -/
theorem find?_of_nodup {α κ : Type} [BEq κ] [LawfulBEq κ] {key : α → κ} {l : List α}
    (h : (l.map key).Nodup) {x : α} (hx : x ∈ l) : l.find? (key · == key x) = some x := by
  induction l with
  | nil => cases hx
  | cons y rest ih =>
    rw [List.map_cons, List.nodup_cons] at h
    rcases List.mem_cons.mp hx with rfl | hx
    · exact List.find?_cons_of_pos (by simp)
    · have hne : key y ≠ key x := fun heq => h.1 (heq ▸ List.mem_map_of_mem hx)
      rw [List.find?_cons_of_neg (by simpa using hne)]
      exact ih h.2 hx

/-! ## Sorted tables -/

namespace Assoc

variable {α : Type}

theorem lookup_cons_ite (p : String × α) (rest : List (String × α)) (k : String) :
    (p :: rest).lookup k = if k = p.1 then some p.2 else rest.lookup k := by
  rw [List.lookup_cons]
  by_cases h : k = p.1
  · rw [if_pos h, beq_iff_eq.mpr h]
  · rw [if_neg h, beq_eq_false_iff_ne.mpr h]

@[simp] theorem lookup_insert (name : String) (v : α) (table : List (String × α)) (k : String) :
    (insert name v table).lookup k = if k = name then some v else table.lookup k := by
  induction table with
  | nil => rw [insert, lookup_cons_ite]
  | cons p rest ih =>
    unfold insert
    by_cases h1 : name < p.1
    · rw [if_pos h1, lookup_cons_ite]
    · rw [if_neg h1]
      by_cases h2 : name = p.1
      · rw [if_pos h2, lookup_cons_ite, lookup_cons_ite]
        by_cases h : k = name
        · rw [if_pos h, if_pos h]
        · rw [if_neg h, if_neg h, if_neg (h2 ▸ h)]
      · rw [if_neg h2, lookup_cons_ite, lookup_cons_ite, ih]
        by_cases hn : k = p.1
        · rw [if_pos hn, if_pos hn, if_neg fun h => h2 (h.symm.trans hn)]
        · rw [if_neg hn, if_neg hn]

theorem mem_insert {name : String} {v : α} {table : List (String × α)} {p : String × α}
    (h : p ∈ insert name v table) : p = (name, v) ∨ p ∈ table := by
  induction table with
  | nil => exact .inl (by simpa [insert] using h)
  | cons q rest ih =>
    obtain ⟨n, u⟩ := q
    unfold insert at h
    split at h
    · exact List.mem_cons.mp h
    · split at h
      · rcases List.mem_cons.mp h with h | h
        · exact .inl h
        · exact .inr (List.mem_cons_of_mem _ h)
      · rcases List.mem_cons.mp h with h | h
        · exact .inr (by rw [h]; exact List.mem_cons_self)
        · rcases ih h with h | h
          · exact .inl h
          · exact .inr (List.mem_cons_of_mem _ h)

theorem sorted_insert {name : String} {v : α} {table : List (String × α)} (h : Sorted table) :
    Sorted (insert name v table) := by
  induction table with
  | nil => simp [insert, Sorted]
  | cons q rest ih =>
    obtain ⟨n, u⟩ := q
    rw [Sorted, List.pairwise_cons] at h
    unfold insert
    by_cases h1 : name < n
    · rw [if_pos h1, Sorted, List.pairwise_cons, List.pairwise_cons]
      refine ⟨?_, h⟩
      intro b hb
      rcases List.mem_cons.mp hb with rfl | hb
      · exact h1
      · exact lt_trans h1 (h.1 b hb)
    · rw [if_neg h1]
      by_cases h2 : name = n
      · rw [if_pos h2, Sorted, List.pairwise_cons]
        exact ⟨fun b hb => by simpa [h2] using h.1 b hb, h.2⟩
      · rw [if_neg h2, Sorted, List.pairwise_cons]
        refine ⟨?_, ih h.2⟩
        intro b hb
        rcases mem_insert hb with rfl | hb
        · exact lt_of_le_of_ne (not_lt.mp h1) (Ne.symm h2)
        · exact h.1 b hb

theorem lookup_eq_none_of_lt {k : String} {table : List (String × α)}
    (h : ∀ p ∈ table, k < p.1) : table.lookup k = none := by
  induction table with
  | nil => rfl
  | cons p rest ih =>
    rw [lookup_cons_ite, if_neg (ne_of_lt (h p List.mem_cons_self))]
    exact ih fun q hq => h q (List.mem_cons_of_mem _ hq)

/-- Of two sorted tables that agree, neither starts with a smaller name. -/
theorem not_lt_of_agree {p q : String × α} {s t : List (String × α)} (ht : Sorted (q :: t))
    (h : (p :: s).lookup p.1 = (q :: t).lookup p.1) : ¬ p.1 < q.1 := by
  intro hlt
  rw [Sorted, List.pairwise_cons] at ht
  have hn : (q :: t).lookup p.1 = none := by
    refine lookup_eq_none_of_lt fun r hr => ?_
    rcases List.mem_cons.mp hr with rfl | hr
    · exact hlt
    · exact lt_trans hlt (ht.1 r hr)
  rw [hn, lookup_cons_ite, if_pos rfl] at h
  cases h

/-- A sorted table is determined by what is looked up in it. -/
theorem ext {s t : List (String × α)} (hs : Sorted s) (ht : Sorted t)
    (h : ∀ k, s.lookup k = t.lookup k) : s = t := by
  induction s generalizing t with
  | nil =>
    cases t with
    | nil => rfl
    | cons q t =>
      have hq := h q.1
      rw [lookup_cons_ite, if_pos rfl] at hq
      cases hq
  | cons p s ih =>
    cases t with
    | nil =>
      have hp := h p.1
      rw [lookup_cons_ite, if_pos rfl] at hp
      cases hp
    | cons q t =>
      -- the smallest names agree, since each is looked up in the other table
      have hname : p.1 = q.1 := le_antisymm (not_lt.mp (not_lt_of_agree hs (h q.1).symm))
        (not_lt.mp (not_lt_of_agree ht (h p.1)))
      have hval : p.2 = q.2 := by
        have hp := h p.1
        rw [lookup_cons_ite, lookup_cons_ite, if_pos rfl, if_pos hname] at hp
        exact Option.some.inj hp
      obtain rfl : p = q := Prod.ext hname hval
      rw [Sorted, List.pairwise_cons] at hs ht
      congr 1
      refine ih hs.2 ht.2 fun k => ?_
      by_cases hk : k = p.1
      · rw [hk, lookup_eq_none_of_lt hs.1, lookup_eq_none_of_lt ht.1]
      · have hr := h k
        rwa [lookup_cons_ite, lookup_cons_ite, if_neg hk, if_neg hk] at hr

/-- The table after bindings that are made one after the other. -/
def insertAll (table bindings : List (String × α)) : List (String × α) :=
  bindings.foldl (fun table b => insert b.1 b.2 table) table

theorem ofList_eq (bindings : List (String × α)) : ofList bindings = insertAll [] bindings := rfl

@[simp] theorem insertAll_nil (table : List (String × α)) : insertAll table [] = table := rfl

@[simp] theorem insertAll_cons (table : List (String × α)) (b : String × α)
    (rest : List (String × α)) :
    insertAll table (b :: rest) = insertAll (insert b.1 b.2 table) rest := rfl

theorem insertAll_append (table bindings more : List (String × α)) :
    insertAll table (bindings ++ more) = insertAll (insertAll table bindings) more :=
  List.foldl_append

/-- A change of the values of a table that does not look at other names. -/
theorem map_insert {β : Type} (g : String → α → β) (name : String) (v : α)
    (table : List (String × α)) :
    (insert name v table).map (fun p => (p.1, g p.1 p.2)) =
      insert name (g name v) (table.map fun p => (p.1, g p.1 p.2)) := by
  induction table with
  | nil => rfl
  | cons p rest ih =>
    rw [insert, List.map_cons, insert]
    split
    · rfl
    · split
      · rfl
      · rw [List.map_cons, ih]

theorem map_ofList {β : Type} (g : String → α → β) (bindings : List (String × α)) :
    (ofList bindings).map (fun p => (p.1, g p.1 p.2)) =
      ofList (bindings.map fun p => (p.1, g p.1 p.2)) := by
  have hall (table : List (String × α)) :
      (insertAll table bindings).map (fun p => (p.1, g p.1 p.2)) =
        insertAll (table.map fun p => (p.1, g p.1 p.2))
          (bindings.map fun p => (p.1, g p.1 p.2)) := by
    induction bindings generalizing table with
    | nil => rfl
    | cons b rest ih => rw [insertAll_cons, ih, map_insert, List.map_cons, insertAll_cons]
  exact hall []

theorem sorted_insertAll {table : List (String × α)} (h : Sorted table)
    (bindings : List (String × α)) : Sorted (insertAll table bindings) := by
  induction bindings generalizing table with
  | nil => exact h
  | cons b rest ih => exact ih (sorted_insert h)

theorem sorted_ofList (bindings : List (String × α)) : Sorted (ofList bindings) :=
  sorted_insertAll List.Pairwise.nil bindings

theorem mem_names_insert {name k : String} {v : α} {table : List (String × α)} :
    name ∈ (insert k v table).map Prod.fst ↔ name = k ∨ name ∈ table.map Prod.fst := by
  induction table with
  | nil => simp [insert]
  | cons p rest ih =>
    rw [insert]
    split
    · simp
    · split
      · rename_i heq
        simp [heq]
      · rw [List.map_cons, List.mem_cons, ih, List.map_cons, List.mem_cons]
        exact or_left_comm

theorem mem_names_ofList {name : String} (bindings : List (String × α)) :
    name ∈ (ofList bindings).map Prod.fst ↔ name ∈ bindings.map Prod.fst := by
  have hall (table : List (String × α)) : name ∈ (insertAll table bindings).map Prod.fst ↔
      name ∈ bindings.map Prod.fst ∨ name ∈ table.map Prod.fst := by
    induction bindings generalizing table with
    | nil => simp
    | cons p rest ih =>
      rw [insertAll_cons, ih, mem_names_insert, List.map_cons, List.mem_cons, or_left_comm,
        or_assoc]
  rw [ofList_eq, hall, List.map_nil]
  simp

theorem lookup_eq_none_of_not_mem {table : List (String × α)} {k : String}
    (h : k ∉ table.map Prod.fst) : table.lookup k = none := by
  induction table with
  | nil => rfl
  | cons p rest ih =>
    rw [List.map_cons, List.mem_cons, not_or] at h
    rw [lookup_cons_ite, if_neg h.1, ih h.2]

/-- With distinct names every binding is found. -/
theorem lookup_of_mem {table : List (String × α)} (hd : (table.map Prod.fst).Nodup) {k : String}
    {v : α} (h : (k, v) ∈ table) : table.lookup k = some v := by
  induction table with
  | nil => cases h
  | cons p rest ih =>
    rw [List.map_cons, List.nodup_cons] at hd
    rw [lookup_cons_ite]
    rcases List.mem_cons.mp h with rfl | h
    · rw [if_pos rfl]
    · rw [if_neg fun hk : k = p.1 => hd.1 (hk ▸ List.mem_map.mpr ⟨(k, v), h, rfl⟩), ih hd.2 h]

/-- With distinct names a binding hides only what the table had before. -/
theorem lookup_insertAll {table bindings : List (String × α)}
    (hd : (bindings.map Prod.fst).Nodup) (k : String) :
    (insertAll table bindings).lookup k = (bindings.lookup k).or (table.lookup k) := by
  induction bindings generalizing table with
  | nil => rfl
  | cons b rest ih =>
    rw [List.map_cons, List.nodup_cons] at hd
    rw [insertAll_cons, ih hd.2, lookup_insert, lookup_cons_ite]
    by_cases hk : k = b.1
    · rw [if_pos hk, if_pos hk, hk, lookup_eq_none_of_not_mem hd.1]
      rfl
    · rw [if_neg hk, if_neg hk]

theorem lookup_ofList {bindings : List (String × α)} (hd : (bindings.map Prod.fst).Nodup)
    (k : String) : (ofList bindings).lookup k = bindings.lookup k := by
  rw [ofList_eq, lookup_insertAll hd, List.lookup_nil, Option.or_none]

/-- Bindings for the first names of a table take the place of what was bound to them. -/
theorem insertAll_ofList {table bindings more : List (String × α)}
    (hd : ((bindings ++ more).map Prod.fst).Nodup)
    (h : table.map Prod.fst = bindings.map Prod.fst) :
    insertAll (ofList (table ++ more)) bindings = ofList (bindings ++ more) := by
  refine ext (sorted_insertAll (sorted_ofList _) bindings) (sorted_ofList _) fun k => ?_
  have hb : (bindings.map Prod.fst).Nodup := by
    rw [List.map_append] at hd
    exact (List.nodup_append.mp hd).1
  have ht : ((table ++ more).map Prod.fst).Nodup := by
    rw [List.map_append, h, ← List.map_append]
    exact hd
  rw [lookup_insertAll hb, lookup_ofList ht, lookup_ofList hd, List.lookup_append,
    List.lookup_append]
  by_cases hk : k ∈ bindings.map Prod.fst
  · obtain ⟨p, hp, rfl⟩ := List.mem_map.mp hk
    rw [lookup_of_mem hb hp]
    rfl
  · rw [lookup_eq_none_of_not_mem hk, lookup_eq_none_of_not_mem (h ▸ hk)]
    rfl

theorem nodup_of_sorted {table : List (String × α)} (h : Sorted table) :
    (table.map Prod.fst).Nodup := by
  rw [List.Nodup, List.pairwise_map]
  exact h.imp fun hlt => ne_of_lt hlt

theorem lookup_filter (P : String → Bool) (table : List (String × α)) (k : String) :
    (table.filter fun p => P p.1).lookup k = if P k then table.lookup k else none := by
  induction table with
  | nil => simp
  | cons p rest ih =>
    rw [List.filter_cons, lookup_cons_ite]
    by_cases hk : k = p.1
    · by_cases hp : P p.1
      · rw [if_pos hp, lookup_cons_ite, if_pos hk, if_pos hk, hk, if_pos hp]
      · rw [if_neg hp, ih, hk, if_neg hp, if_neg hp]
    · rw [if_neg hk, ← ih]
      split
      · rw [lookup_cons_ite, if_neg hk]
      · rfl

theorem sorted_filter {table : List (String × α)} (h : Sorted table) (P : String → Bool) :
    Sorted (table.filter fun p => P p.1) := List.Pairwise.filter _ h

/-- A binding of a name that is kept is kept. -/
theorem filter_insert_of_pos {P : String → Bool} {name : String} (hP : P name = true) {v : α}
    {table : List (String × α)} (h : Sorted table) :
    ((insert name v table).filter fun p => P p.1) =
      insert name v (table.filter fun p => P p.1) := by
  refine ext (sorted_filter (sorted_insert h) P) (sorted_insert (sorted_filter h P)) fun k => ?_
  rw [lookup_filter, lookup_insert, lookup_insert, lookup_filter]
  by_cases hk : k = name
  · rw [if_pos hk, if_pos hk, hk, if_pos hP]
  · rw [if_neg hk, if_neg hk]

/-- A binding of a name that is not kept changes nothing. -/
theorem filter_insert_of_neg {P : String → Bool} {name : String} (hP : P name = false) {v : α}
    {table : List (String × α)} (h : Sorted table) :
    ((insert name v table).filter fun p => P p.1) = table.filter fun p => P p.1 := by
  refine ext (sorted_filter (sorted_insert h) P) (sorted_filter h P) fun k => ?_
  rw [lookup_filter, lookup_filter, lookup_insert]
  by_cases hk : k = name
  · rw [hk, hP, if_neg (by decide), if_neg (by decide)]
  · rw [if_neg hk]

/-- Making a sorted table again changes nothing. -/
theorem ofList_of_sorted {table : List (String × α)} (h : Sorted table) : ofList table = table :=
  ext (sorted_ofList table) h (lookup_ofList (nodup_of_sorted h))

end Assoc

end WireSchema
