import Mathlib.Data.List.Induction

/-! # Fields between separators

The runs of a list between separators, empty runs left out, as a path is read. -/

namespace Exyde.Lib

open List

variable {α : Type} [DecidableEq α] {sep c : α} {l p q : List α}

def fields (sep : α) : List α → List (List α)
  | [] => []
  | c :: l =>
    if c = sep then fields sep l
    else
      match l.head? with
      | none => [[c]]
      | some d => if d = sep then [c] :: fields sep l else (fields sep l).modifyHead (c :: ·)

@[simp] theorem fields_nil (sep : α) : fields sep [] = [] := rfl

@[simp] theorem fields_sep (sep : α) (l : List α) : fields sep (sep :: l) = fields sep l := by
  simp [fields]

theorem fields_last (h : c ≠ sep) : fields sep [c] = [[c]] := by
  simp [fields, h]

theorem fields_end (h : c ≠ sep) (l : List α) : fields sep (c :: sep :: l) = [c] :: fields sep l := by
  rw [fields, if_neg h]
  simp

theorem fields_more {d : α} (h : c ≠ sep) (hd : d ≠ sep) (l : List α) :
    fields sep (c :: d :: l) = (fields sep (d :: l)).modifyHead (c :: ·) := by
  rw [fields, if_neg h]
  simp [hd]

theorem fields_ne_nil (h : c ≠ sep) (l : List α) : fields sep (c :: l) ≠ [] := by
  induction l generalizing c with
  | nil => simp [fields_last h]
  | cons d l ih =>
    by_cases hd : d = sep
    · subst hd
      simp [fields_end h]
    · rw [fields_more h hd]
      simpa using ih hd

/-- **A separator ends a field.** -/
theorem fields_append (sep : α) (p q : List α) :
    fields sep (p ++ sep :: q) = fields sep p ++ fields sep q := by
  induction p with
  | nil => simp
  | cons c p ih =>
    by_cases hc : c = sep
    · subst hc
      simpa using ih
    cases p with
    | nil => simp [fields_end hc, fields_last hc]
    | cons d p =>
      by_cases hd : d = sep
      · subst hd
        rw [cons_append, cons_append, fields_end hc, fields_end hc]
        rw [cons_append, fields_sep, fields_sep] at ih
        rw [ih, cons_append]
      · rw [cons_append, cons_append, fields_more hc hd, fields_more hc hd,
          ← cons_append, ih]
        cases hf : fields sep (d :: p) with
        | nil => exact absurd hf (fields_ne_nil hd p)
        | cons x xs => rfl

theorem fields_run (hne : p ≠ []) (hp : sep ∉ p) : fields sep p = [p] := by
  induction p with
  | nil => exact absurd rfl hne
  | cons c p ih =>
    have hc : c ≠ sep := fun heq => hp (heq ▸ mem_cons_self)
    cases p with
    | nil => exact fields_last hc
    | cons d p =>
      have hd : d ≠ sep := fun heq => hp (by simp [heq])
      rw [fields_more hc hd, ih (by simp) fun h => hp (mem_cons_of_mem _ h)]
      rfl

theorem fields_flatMap {ns : List (List α)} (h : ∀ n ∈ ns, n ≠ [] ∧ sep ∉ n) :
    fields sep (ns.flatMap (sep :: ·)) = ns := by
  induction ns using List.reverseRecOn with
  | nil => rfl
  | append_singleton ns n ih =>
    obtain ⟨hne, hsep⟩ := h n (by simp)
    rw [flatMap_append, flatMap_singleton, fields_append,
      ih fun m hm => h m (mem_append_left _ hm), fields_run hne hsep]

/-- **The scanner**: what is left after skipping separators starts with the first field. -/
theorem fields_scan (l : List α) (h : l.dropWhile (· == sep) ≠ []) :
    fields sep l = (l.dropWhile (· == sep)).takeWhile (· != sep) ::
      fields sep ((l.dropWhile (· == sep)).dropWhile (· != sep)) := by
  induction l with
  | nil => exact absurd rfl h
  | cons c l ih =>
    by_cases hc : c = sep
    · subst hc
      simpa using ih (by simpa using h)
    rw [dropWhile_cons_of_neg (by simpa using hc)]
    clear ih h
    induction l generalizing c with
    | nil => simp [fields_last hc, hc]
    | cons d l ih =>
      by_cases hd : d = sep
      · subst hd
        simp [fields_end hc, hc]
      · have hstep := ih d hd
        have hpos : (c != sep) = true := by simpa using hc
        rw [fields_more hc hd, hstep, takeWhile_cons_of_pos (p := (· != sep)) hpos,
          dropWhile_cons_of_pos (p := (· != sep)) hpos]
        rfl

theorem fields_of_dropWhile (h : l.dropWhile (· == sep) = []) : fields sep l = [] := by
  induction l with
  | nil => rfl
  | cons c l ih =>
    by_cases hc : c = sep
    · subst hc
      simpa using ih (by simpa using h)
    · rw [dropWhile_cons_of_neg (by simpa using hc)] at h
      cases h

theorem length_scan (h : l.dropWhile (· == sep) ≠ []) :
    ((l.dropWhile (· == sep)).dropWhile (· != sep)).length < l.length := by
  have hle : (l.dropWhile (· == sep)).length ≤ l.length := (dropWhile_sublist _).length_le
  obtain ⟨c, r, hcr⟩ := exists_cons_of_ne_nil h
  have hc : (c == sep) = false := by
    have hhead := head_dropWhile_not (· == sep) h
    simpa [hcr] using hhead
  have hrest : (r.dropWhile (· != sep)).length ≤ r.length := (dropWhile_sublist _).length_le
  rw [hcr, length_cons] at hle
  rw [hcr, dropWhile_cons_of_pos (by simpa using hc)]
  omega

end Exyde.Lib
