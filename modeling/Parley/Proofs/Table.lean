import Parley.Table
import Mathlib.Tactic.Lemma

/-!
What is in a table, before and after writing it.
-/

namespace Parley.Table

variable {κ α : Type} [DecidableEq κ]

lemma mem_of_find? {t : Table κ α} {key : κ} {a : α} (h : find? t key = some a) :
    (key, a) ∈ t := by
  induction t with
  | nil => simp [find?] at h
  | cons e rest ih =>
    obtain ⟨k, b⟩ := e
    by_cases hk : k = key
    · simp only [find?, if_pos hk, Option.some.injEq] at h
      simp [hk, h]
    · simp only [find?, if_neg hk] at h
      exact List.mem_cons_of_mem _ (ih h)

lemma mem_set {t : Table κ α} {key : κ} {a : α} {e : κ × α} (h : e ∈ set t key a) :
    e ∈ t ∨ e = (key, a) := by
  induction t with
  | nil => exact .inr (by simpa [set] using h)
  | cons f rest ih =>
    obtain ⟨k, b⟩ := f
    by_cases hk : k = key
    · simp only [set, if_pos hk, List.mem_cons] at h
      rcases h with rfl | h
      · exact .inr (by rw [hk])
      · exact .inl (List.mem_cons_of_mem _ h)
    · simp only [set, if_neg hk, List.mem_cons] at h
      rcases h with rfl | h
      · exact .inl (List.mem_cons_self ..)
      · exact (ih h).imp_left (List.mem_cons_of_mem _)

lemma mem_of_mem_erase {t : Table κ α} {key : κ} {e : κ × α} (h : e ∈ erase t key) : e ∈ t :=
  (List.mem_filter.mp h).1

lemma mem_of_mem_setAll {t : Table κ α} {entries : List (κ × α)} {e : κ × α}
    (h : e ∈ setAll t entries) :
    e ∈ t ∨ e ∈ entries := by
  induction entries generalizing t with
  | nil => exact .inl h
  | cons f rest ih =>
    rcases ih h with h | h
    · rcases mem_set h with h | rfl
      · exact .inl h
      · exact .inr (List.mem_cons_self ..)
    · exact .inr (List.mem_cons_of_mem _ h)

lemma find?_set (t : Table κ α) (key other : κ) (a : α) :
    find? (set t key a) other = if other = key then some a else find? t other := by
  split
  · next h => rw [h, find?_set_self]
  · next h => rw [find?_set_of_ne _ _ h]

lemma find?_append (t u : Table κ α) (key : κ) :
    find? (t ++ u) key = (find? t key).or (find? u key) := by
  induction t with
  | nil => rfl
  | cons e rest ih =>
    by_cases h : e.1 = key
    · simp [find?, h]
    · simp [find?, h, ih]

/-- Of the entries that are written under a key, the last one counts. -/
lemma find?_setAll (t : Table κ α) (entries : List (κ × α)) (key : κ) :
    find? (setAll t entries) key = (find? entries.reverse key).or (find? t key) := by
  induction entries generalizing t with
  | nil => rfl
  | cons e rest ih =>
    obtain ⟨n, a⟩ := e
    have hrest : setAll t ((n, a) :: rest) = setAll (set t n a) rest := rfl
    rw [hrest, ih, List.reverse_cons, find?_append, find?_set, Option.or_assoc]
    congr 1
    simp only [find?, eq_comm (a := key)]
    split <;> rfl

lemma find?_eq_none {t : Table κ α} {key : κ} (h : ∀ e ∈ t, e.1 ≠ key) : find? t key = none := by
  induction t with
  | nil => rfl
  | cons e rest ih =>
    rw [find?, if_neg (h e (List.mem_cons_self ..))]
    exact ih fun f hf => h f (List.mem_cons_of_mem _ hf)

lemma set_of_not_mem {t : Table κ α} {key : κ} (h : ∀ e ∈ t, e.1 ≠ key) (a : α) :
    set t key a = t ++ [(key, a)] := by
  induction t with
  | nil => rfl
  | cons e rest ih =>
    rw [set, if_neg (h e (List.mem_cons_self ..)),
      ih fun f hf => h f (List.mem_cons_of_mem _ hf)]
    rfl

lemma nodup_set {t : Table κ α} (h : (t.map (·.1)).Nodup) (key : κ) (a : α) :
    ((set t key a).map (·.1)).Nodup := by
  induction t with
  | nil => simp [set]
  | cons e rest ih =>
    obtain ⟨k, b⟩ := e
    rw [List.map_cons, List.nodup_cons] at h
    by_cases hk : k = key
    · rw [set, if_pos hk]
      exact List.nodup_cons.mpr h
    · rw [set, if_neg hk]
      refine List.nodup_cons.mpr ⟨fun hm => ?_, ih h.2⟩
      obtain ⟨f, hf, hfk⟩ := List.mem_map.mp hm
      rcases mem_set hf with hf | rfl
      · exact h.1 (List.mem_map.mpr ⟨f, hf, hfk⟩)
      · exact hk hfk.symm

lemma nodup_setAll {t : Table κ α} (h : (t.map (·.1)).Nodup) (entries : List (κ × α)) :
    ((setAll t entries).map (·.1)).Nodup := by
  induction entries generalizing t with
  | nil => exact h
  | cons e rest ih => exact ih (nodup_set h e.1 e.2)

lemma erase_of_not_mem {t : Table κ α} {key : κ} (h : ∀ e ∈ t, e.1 ≠ key) : erase t key = t :=
  List.filter_eq_self.mpr fun e he => by simpa using h e he

lemma perm_erase {t : Table κ α} {key : κ} {a : α} (h : (t.map (·.1)).Nodup)
    (hm : (key, a) ∈ t) : t.Perm ((key, a) :: erase t key) := by
  induction t with
  | nil => simp at hm
  | cons e rest ih =>
    rw [List.map_cons, List.nodup_cons] at h
    rcases List.mem_cons.mp hm with rfl | hm
    · have hrest : ∀ e ∈ rest, e.1 ≠ key := fun e he hk =>
        h.1 (List.mem_map.mpr ⟨e, he, hk⟩)
      have hself : erase ((key, a) :: rest) key = erase rest key :=
        List.filter_cons_of_neg (by simp)
      rw [hself, erase_of_not_mem hrest]
    · have hk : e.1 ≠ key := fun hk => h.1 (List.mem_map.mpr ⟨_, hm, hk.symm⟩)
      have hkeep : erase (e :: rest) key = e :: erase rest key :=
        List.filter_cons_of_pos (by simpa using hk)
      rw [hkeep]
      exact ((ih h.2 hm).cons e).trans (.swap ..)

lemma find?_of_mem {t : Table κ α} {key : κ} {a : α} (h : (t.map (·.1)).Nodup)
    (hm : (key, a) ∈ t) : find? t key = some a := by
  induction t with
  | nil => simp at hm
  | cons e rest ih =>
    rw [List.map_cons, List.nodup_cons] at h
    rcases List.mem_cons.mp hm with rfl | hm
    · simp [find?]
    · have hk : e.1 ≠ key := fun hk => h.1 (List.mem_map.mpr ⟨_, hm, hk.symm⟩)
      rw [find?, if_neg hk]
      exact ih h.2 hm

/-- Under different keys the order of the entries does not matter. -/
lemma find?_of_perm {t u : Table κ α} (h : t.Perm u) (hn : (t.map (·.1)).Nodup) (key : κ) :
    find? u key = find? t key := by
  cases ht : find? t key with
  | some a => exact find?_of_mem ((h.map _).nodup_iff.mp hn) (h.mem_iff.mp (mem_of_find? ht))
  | none =>
    cases hu : find? u key with
    | none => rfl
    | some a => exact absurd (find?_of_mem hn (h.mem_iff.mpr (mem_of_find? hu))) (by simp [ht])

/-- A table made of entries under different keys, some of them left out. -/
lemma find?_filterMap {ι : Type} {entries : List ι} {key : ι → κ} {val : ι → Option α}
    (hn : (entries.map key).Nodup) {e : ι} (he : e ∈ entries) :
    find? (entries.filterMap fun e => (val e).map fun a => (key e, a)) (key e) = val e := by
  induction entries with
  | nil => simp at he
  | cons d rest ih =>
    rw [List.map_cons, List.nodup_cons] at hn
    have hrest : ∀ c ∈ rest, key c ≠ key d := fun c hc h =>
      hn.1 (List.mem_map.mpr ⟨c, hc, h⟩)
    have hnone : find? (rest.filterMap fun e => (val e).map fun a => (key e, a)) (key d) =
        none := by
      refine find?_eq_none fun b hb => ?_
      obtain ⟨c, hc, hcb⟩ := List.mem_filterMap.mp hb
      obtain ⟨a, -, rfl⟩ := Option.map_eq_some_iff.mp hcb
      exact hrest c hc
    rcases List.mem_cons.mp he with rfl | he
    · cases hv : val e <;> simp [hv, hnone, find?]
    · have hne : key d ≠ key e := fun h => hrest e he h.symm
      cases hv : val d <;> simp [hv, find?, hne, ih hn.2 he]

end Parley.Table
