import Clausal.Proofs.Clause
import Mathlib.Data.Finset.Card

/-!
# Unit propagation by scanning

The plain way to propagate units looks at every clause: a scan goes through all of them and makes
true each literal that is the only one left of its clause, and scans are repeated until one finds
nothing. What is known in the end lies in every set that has the literals known at first and is closed
under unit propagation; and it is such a set itself, unless it falsifies a clause.
-/

namespace Clausal

/-- A set of literals has each literal of a clause whose other literals it makes false. -/
def UnitClosed (cs : List Clause) (S : Set Literal) : Prop :=
  ∀ c ∈ cs, ∀ l ∈ c, (∀ m ∈ c, m ≠ l → -m ∈ S) → l ∈ S

/-- Some clause has all its literals false. -/
def Falsifies (cs : List Clause) (S : Set Literal) : Prop := ∃ c ∈ cs, ∀ m ∈ c, -m ∈ S

theorem UnitClosed.of_perm {cs ds : List Clause} {S : Set Literal} (h : UnitClosed cs S)
    (hp : ∀ d ∈ ds, ∃ c ∈ cs, d.Perm c) : UnitClosed ds S := by
  intro d hd l hl hother
  obtain ⟨c, hc, hdc⟩ := hp d hd
  exact h c hc l (hdc.mem_iff.mp hl) fun m hm => hother m (hdc.mem_iff.mpr hm)

/-- The literal without a value whose clause has all other literals false, if there is one. -/
def Clause.unit? (known : List Literal) (c : Clause) : Option Literal :=
  c.find? fun l => l ∉ known ∧ -l ∉ known ∧ ∀ m ∈ c, m ≠ l → -m ∈ known

namespace Scanning

variable {cs : List Clause} {c : Clause} {known : List Literal} {l : Literal} {S : Set Literal}

/-- Makes true the literal that is left of a clause. -/
def note (known : List Literal) (c : Clause) : List Literal := known ++ (c.unit? known).toList

/-- Goes through all clauses once. -/
def scan (cs : List Clause) (known : List Literal) : List Literal := cs.foldl note known

theorem unit?_eq_some (h : c.unit? known = some l) :
    l ∈ c ∧ l ∉ known ∧ ∀ m ∈ c, m ≠ l → -m ∈ known := by
  have hl := List.find?_some h
  simp only [decide_eq_true_eq] at hl
  exact ⟨List.mem_of_find?_eq_some h, hl.1, hl.2.2⟩

theorem unit?_eq_none (h : c.unit? known = none) (hl : l ∈ c)
    (hother : ∀ m ∈ c, m ≠ l → -m ∈ known) : l ∈ known ∨ -l ∈ known := by
  have hno := List.find?_eq_none.mp h l hl
  simp only [decide_eq_true_eq] at hno
  by_cases hpos : l ∈ known
  · exact .inl hpos
  · by_cases hneg : -l ∈ known
    · exact .inr hneg
    · exact absurd ⟨hpos, hneg, hother⟩ hno

/-! ## One scan -/

/-- A scan adds literals of clauses that were not known. -/
theorem scan_eq_append (cs : List Clause) (known : List Literal) :
    ∃ added, scan cs known = known ++ added ∧ ∀ l ∈ added, l ∈ cs.flatten ∧ l ∉ known := by
  induction cs generalizing known with
  | nil => exact ⟨[], (List.append_nil known).symm, by simp⟩
  | cons c cs ih =>
    obtain ⟨added, hadded, hnew⟩ := ih (note known c)
    refine ⟨(c.unit? known).toList ++ added, ?_, fun l hl => ?_⟩
    · rw [← List.append_assoc]
      exact hadded
    · rcases List.mem_append.mp hl with hl | hl
      · obtain ⟨hc, hk, -⟩ := unit?_eq_some (Option.mem_toList.mp hl)
        exact ⟨List.mem_append_left _ hc, hk⟩
      · obtain ⟨hcs, hk⟩ := hnew l hl
        exact ⟨List.mem_append_right _ hcs, fun h => hk (List.mem_append_left _ h)⟩

/-- A scan that adds nothing has found no clause with one literal left. -/
theorem unit?_eq_none_of_scan (h : scan cs known = known) : ∀ c ∈ cs, c.unit? known = none := by
  induction cs with
  | nil => simp
  | cons c cs ih =>
    obtain ⟨added, hadded, -⟩ := scan_eq_append cs (note known c)
    have hsame : known ++ ((c.unit? known).toList ++ added) = known ++ [] := by
      rw [← List.append_assoc, List.append_nil]
      exact hadded.symm.trans h
    obtain ⟨hnone, -⟩ := List.append_eq_nil_iff.mp (List.append_cancel_left hsame)
    have hc : c.unit? known = none := Option.toList_eq_nil_iff.mp hnone
    have hcs : scan cs known = known := by
      have hnote : note known c = known := by rw [note, hnone, List.append_nil]
      rw [← hnote]
      exact h.trans hnote.symm
    intro d hd
    rcases List.mem_cons.mp hd with rfl | hd
    · exact hc
    · exact ih hcs d hd

/-- A scan stays within a closed set. -/
theorem scan_subset (hS : UnitClosed cs S) {ds : List Clause} (hds : ∀ d ∈ ds, d ∈ cs)
    (hknown : ∀ l ∈ known, l ∈ S) : ∀ l ∈ scan ds known, l ∈ S := by
  induction ds generalizing known with
  | nil => exact hknown
  | cons d ds ih =>
    refine ih (fun e he => hds e (List.mem_cons_of_mem _ he)) fun l hl => ?_
    rcases List.mem_append.mp hl with hl | hl
    · exact hknown l hl
    · obtain ⟨hd, -, hother⟩ := unit?_eq_some (Option.mem_toList.mp hl)
      exact hS d (hds d List.mem_cons_self) l hd fun m hm hne => hknown _ (hother m hm hne)

/-- The literals of clauses that are not known. -/
def unknown (cs : List Clause) (known : List Literal) : Finset Literal :=
  cs.flatten.toFinset \ known.toFinset

theorem unknown_scan_ssubset (h : scan cs known ≠ known) :
    unknown cs (scan cs known) ⊂ unknown cs known := by
  obtain ⟨added, hadded, hnew⟩ := scan_eq_append cs known
  have hne : added ≠ [] := by
    rintro rfl
    exact h (by rw [hadded, List.append_nil])
  obtain ⟨l, hl⟩ := List.exists_mem_of_ne_nil added hne
  have hmem : ∀ m, m ∈ scan cs known ↔ m ∈ known ∨ m ∈ added := by
    intro m
    rw [hadded, List.mem_append]
  refine (Finset.ssubset_iff_of_subset fun m hm => ?_).mpr ⟨l, ?_, ?_⟩
  · simp only [unknown, Finset.mem_sdiff, List.mem_toFinset, hmem, not_or] at hm ⊢
    exact ⟨hm.1, hm.2.1⟩
  · simpa [unknown] using hnew l hl
  · simp [unknown, hmem, hl]

/-! ## All scans -/

/-- Scans all clauses until a scan finds nothing new. -/
def naive (cs : List Clause) (known : List Literal) : List Literal :=
  if scan cs known = known then known else naive cs (scan cs known)
termination_by (unknown cs known).card
decreasing_by exact Finset.card_lt_card (unknown_scan_ssubset ‹_›)

theorem subset_naive (cs : List Clause) (known : List Literal) :
    ∀ l ∈ known, l ∈ naive cs known := by
  fun_induction naive cs known with
  | case1 => exact fun _ hl => hl
  | case2 known _ ih =>
    obtain ⟨added, hadded, -⟩ := scan_eq_append cs known
    intro l hl
    apply ih
    rw [hadded]
    exact List.mem_append_left _ hl

/-- What is known in the end lies in every closed set that has what was known at first. -/
theorem naive_subset (hS : UnitClosed cs S) (hknown : ∀ l ∈ known, l ∈ S) :
    ∀ l ∈ naive cs known, l ∈ S := by
  fun_induction naive cs known with
  | case1 => exact hknown
  | case2 known _ ih => exact ih (scan_subset hS (fun _ hd => hd) hknown)

theorem unit?_naive (cs : List Clause) (known : List Literal) :
    ∀ c ∈ cs, c.unit? (naive cs known) = none := by
  fun_induction naive cs known with
  | case1 _ h => exact unit?_eq_none_of_scan h
  | case2 known _ ih => exact ih

/-- What is known in the end is closed, unless a clause is falsified. -/
theorem unitClosed_naive (h : ¬ Falsifies cs {l | l ∈ naive cs known}) :
    UnitClosed cs {l | l ∈ naive cs known} := by
  intro c hc l hl hother
  rcases unit?_eq_none (unit?_naive cs known c hc) hl hother with hpos | hneg
  · exact hpos
  -- with the last literal false as well the clause is falsified
  · refine absurd ⟨c, hc, fun m hm => ?_⟩ h
    by_cases hml : m = l
    · exact hml ▸ hneg
    · exact hother m hm hml

end Scanning

end Clausal
