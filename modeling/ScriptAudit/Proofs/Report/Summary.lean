/-
The counts at the end of a report in plain text. Each category that occurs has one
line with the number of its findings; the lines stand in the order of the first
findings, and the numbers add up to the total. The order of the findings matters for
the order of the lines and for nothing else.
-/

import Mathlib.Algebra.BigOperators.Group.List.Basic
import Mathlib.Algebra.GroupWithZero.Nat
import Mathlib.Data.List.Induction
import Mathlib.Data.List.Nodup
import ScriptAudit.Proofs.Report.Listing

namespace ScriptAudit

open Bytes

theorem sum_countP_eq_length {α κ : Type} [DecidableEq κ] (group : α → κ)
    {groups : List κ} {items : List α}
    (once : ∀ item ∈ items, groups.count (group item) = 1) :
    (groups.map fun wanted => items.countP (group · == wanted)).sum =
      items.length := by
  induction items with
  | nil => simp
  | cons item rest inductionHypothesis =>
      have later := inductionHypothesis fun other member =>
        once other (.tail _ member)
      have own : (groups.map fun wanted =>
          if (group item == wanted) = true then 1 else 0).sum = 1 := by
        rw [List.sum_map_eq_nsmul_single (group item), once item (.head _)]
        · simp
        · intro wanted different _
          exact if_neg fun same => different (beq_iff_eq.mp same).symm
      simp only [List.countP_cons, List.sum_map_add, List.length_cons, later, own]

theorem SeverityCounts.of_add (counts : SeverityCounts)
    (severity wanted : Severity) :
    (counts.add severity).of wanted =
      counts.of wanted + if (severity == wanted) = true then 1 else 0 := by
  cases severity <;> cases wanted <;> rfl

theorem CategoryCounts.of_add (counts : CategoryCounts)
    (category wanted : Category) :
    (counts.add category).of wanted =
      counts.of wanted + if (category == wanted) = true then 1 else 0 := by
  cases category <;> cases wanted <;> rfl

namespace Summary

/-- A number that each step of the pass raises by one for some of the findings has
counted these findings at the end. -/
theorem foldl_record (number : Summary → Nat) (counted : Finding → Bool)
    (step : ∀ summary finding, number (summary.record finding) =
      number summary + if counted finding = true then 1 else 0)
    (findings : List Finding) (summary : Summary) :
    number (findings.foldl record summary) =
      number summary + findings.countP counted := by
  induction findings generalizing summary with
  | nil => rfl
  | cons finding rest inductionHypothesis =>
      rw [List.foldl_cons, inductionHypothesis, step, List.countP_cons]
      omega

theorem total_ofFindings (findings : List Finding) :
    (ofFindings findings).total = findings.length := by
  unfold ofFindings
  rw [foldl_record total (fun _ => false) fun _ _ => rfl, List.countP_false]
  rfl

theorem bySeverity_ofFindings (findings : List Finding) (wanted : Severity) :
    (ofFindings findings).bySeverity wanted =
      findings.countP fun finding => finding.severity == wanted := by
  unfold ofFindings
  rw [foldl_record (bySeverity · wanted) (fun finding => finding.severity == wanted)
    fun summary finding => summary.severities.of_add finding.severity wanted]
  cases wanted <;> exact Nat.zero_add _

theorem byCategory_ofFindings (findings : List Finding) (wanted : Category) :
    (ofFindings findings).byCategory wanted =
      findings.countP fun finding => finding.category == wanted := by
  unfold ofFindings
  rw [foldl_record (byCategory · wanted) (fun finding => finding.category == wanted)
    fun summary finding => summary.categories.of_add finding.category wanted]
  cases wanted <;> exact Nat.zero_add _

end Summary

namespace Report

/-! ### Categories in the order of their first findings -/

def firstIndex (findings : List Finding) (category : Category) : Nat :=
  findings.findIdx fun finding => finding.category == category

def Occurs (findings : List Finding) (category : Category) : Prop :=
  ∃ finding ∈ findings, finding.category = category

theorem firstIndex_lt_length_iff {findings : List Finding} {category : Category} :
    firstIndex findings category < findings.length ↔ Occurs findings category := by
  simp only [firstIndex, List.findIdx_lt_length, beq_iff_eq, Occurs]

theorem firstIndex_append {findings : List Finding} {category : Category}
    (occurs : Occurs findings category) (later : List Finding) :
    firstIndex (findings ++ later) category = firstIndex findings category := by
  unfold firstIndex
  rw [List.findIdx_append]
  exact if_pos (firstIndex_lt_length_iff.mpr occurs)

theorem length_le_firstIndex {findings : List Finding} {category : Category}
    (absent : ¬Occurs findings category) (later : List Finding) :
    findings.length ≤ firstIndex (findings ++ later) category := by
  have past : ¬firstIndex findings category < findings.length :=
    mt firstIndex_lt_length_iff.mp absent
  unfold firstIndex at past ⊢
  rw [List.findIdx_append, if_neg past]
  exact Nat.le_add_left _ _

/-- The categories that occur, each once, in the order of their first findings. -/
structure InOrderOfFirst (findings : List Finding)
    (listed : List Category) : Prop where
  once : listed.Nodup
  occurring : ∀ category, category ∈ listed ↔ Occurs findings category
  ordered : listed.Pairwise fun first second =>
    firstIndex findings first < firstIndex findings second

/-- One more finding adds its category at the end, unless it is there already. -/
theorem categories_concat (findings : List Finding) (finding : Finding) :
    categories (findings ++ [finding]) =
      if finding.category ∈ categories findings then categories findings
      else categories findings ++ [finding.category] := by
  unfold categories
  rw [List.map_append, List.map_singleton, List.eraseDups_append]
  generalize findings.map Finding.category = earlier
  by_cases seen : finding.category ∈ earlier
  · simp [List.removeAll, List.mem_eraseDups, seen]
  · simp [List.removeAll, List.mem_eraseDups, List.eraseDups_cons, seen]

theorem occurs_concat {findings : List Finding} {finding : Finding}
    {category : Category} :
    Occurs (findings ++ [finding]) category ↔
      Occurs findings category ∨ finding.category = category := by
  simp [Occurs, or_and_right, exists_or]

namespace InOrderOfFirst

variable {findings : List Finding} {listed : List Category}

theorem ordered_append (inOrder : InOrderOfFirst findings listed)
    (later : List Finding) :
    listed.Pairwise fun first second =>
      firstIndex (findings ++ later) first <
        firstIndex (findings ++ later) second := by
  refine inOrder.ordered.imp_of_mem ?_
  intro first second firstListed secondListed before
  rwa [firstIndex_append ((inOrder.occurring first).mp firstListed),
    firstIndex_append ((inOrder.occurring second).mp secondListed)]

theorem concat_seen (inOrder : InOrderOfFirst findings listed) {finding : Finding}
    (seen : finding.category ∈ listed) :
    InOrderOfFirst (findings ++ [finding]) listed where
  once := inOrder.once
  occurring category := by
    rw [occurs_concat, inOrder.occurring]
    constructor
    · exact .inl
    · rintro (occurs | rfl)
      · exact occurs
      · exact (inOrder.occurring _).mp seen
  ordered := inOrder.ordered_append [finding]

theorem concat_unseen (inOrder : InOrderOfFirst findings listed)
    {finding : Finding} (unseen : finding.category ∉ listed) :
    InOrderOfFirst (findings ++ [finding]) (listed ++ [finding.category]) where
  once := by simpa using inOrder.once.concat unseen
  occurring category := by
    rw [List.mem_append, List.mem_singleton, occurs_concat, inOrder.occurring,
      eq_comm]
  ordered := by
    rw [List.pairwise_append]
    refine ⟨inOrder.ordered_append [finding], List.pairwise_singleton _ _, ?_⟩
    intro first firstListed second secondListed
    have occurs := (inOrder.occurring first).mp firstListed
    rw [List.mem_singleton.mp secondListed, firstIndex_append occurs]
    calc
      firstIndex findings first < findings.length :=
        firstIndex_lt_length_iff.mpr occurs
      _ ≤ firstIndex (findings ++ [finding]) finding.category :=
        length_le_firstIndex (mt (inOrder.occurring _).mpr unseen) [finding]

end InOrderOfFirst

theorem categories_inOrderOfFirst (findings : List Finding) :
    InOrderOfFirst findings (categories findings) := by
  induction findings using List.reverseRecOn with
  | nil =>
      exact ⟨List.nodup_nil, by simp [categories, Occurs], List.Pairwise.nil⟩
  | append_singleton findings finding inductionHypothesis =>
      rw [categories_concat]
      split
      · rename_i seen
        exact inductionHypothesis.concat_seen seen
      · rename_i unseen
        exact inductionHypothesis.concat_unseen unseen

/-! ### The lines of the categories -/

def countOf (findings : List Finding) (category : Category) : Nat :=
  findings.countP fun finding => finding.category == category

theorem InOrderOfFirst.sum_countOf {findings : List Finding}
    {listed : List Category} (inOrder : InOrderOfFirst findings listed) :
    (listed.map (countOf findings)).sum = findings.length := by
  apply sum_countP_eq_length
  intro finding member
  have present : finding.category ∈ listed :=
    (inOrder.occurring _).mpr ⟨finding, member, rfl⟩
  exact List.count_eq_one_of_mem inOrder.once present

def breakdown (findings : List Finding) : List Bytes :=
  (categories findings).map (categoryLine (Summary.ofFindings findings))

theorem text_eq (findings : List Finding) :
    text findings =
      unlines (headLines ++ [listing findings, "", "Summary:",
        "Total issues: " ++ decimal findings.length] ++ breakdown findings) := by
  simp [text, summaryLines, breakdown, Summary.total_ofFindings]

theorem breakdown_eq (findings : List Finding) :
    breakdown findings = (categories findings).map fun category =>
      "- " ++ category.name ++ ": " ++ decimal (countOf findings category) := by
  refine List.map_congr_left fun category _ => ?_
  rw [categoryLine, Summary.byCategory_ofFindings, countOf]

theorem newline_not_mem_breakdown {findings : List Finding} {line : Bytes}
    (member : line ∈ breakdown findings) : newline ∉ line := by
  obtain ⟨category, _, rfl⟩ := List.mem_map.mp member
  have name := category.name_facts.2
  simp only [categoryLine, List.mem_append, name, newline_not_mem_decimal,
    or_false]
  decide

theorem categories_perm {findings others : List Finding}
    (rearranged : findings.Perm others) :
    (categories findings).Perm (categories others) := by
  have here := categories_inOrderOfFirst findings
  have there := categories_inOrderOfFirst others
  rw [List.perm_ext_iff_of_nodup here.once there.once]
  intro category
  simp only [here.occurring, there.occurring, Occurs, rearranged.mem_iff]

theorem countOf_perm {findings others : List Finding}
    (rearranged : findings.Perm others) : countOf findings = countOf others :=
  funext fun _ => rearranged.countP_eq _

end Report

open Report

/--
The counts of the report in plain text. After the line with the total there is one line
for each category that occurs, in the order of the first findings, with the number of
its findings; these numbers add up to the total. If the findings are rearranged, these
lines are rearranged.
-/
theorem text_breakdown (findings : List Finding) :
    (∃ listed, InOrderOfFirst findings listed ∧
      breakdown findings = listed.map (fun category =>
        "- " ++ category.name ++ ": " ++ decimal (countOf findings category)) ∧
      (listed.map (countOf findings)).sum = findings.length) ∧
    text findings =
      unlines (headLines ++ [listing findings, "", "Summary:",
        "Total issues: " ++ decimal findings.length] ++ breakdown findings) ∧
    (∀ line ∈ breakdown findings, newline ∉ line) ∧
    ∀ others, findings.Perm others →
      (breakdown findings).Perm (breakdown others) := by
  have inOrder := categories_inOrderOfFirst findings
  refine ⟨⟨_, inOrder, breakdown_eq findings, inOrder.sum_countOf⟩,
    text_eq findings, fun _ => newline_not_mem_breakdown, ?_⟩
  intro others rearranged
  rw [breakdown_eq, breakdown_eq, countOf_perm rearranged]
  exact (categories_perm rearranged).map _

def remark (category : Category) : Finding :=
  { category := category
    severity := .low
    message := []
    position := .start }

/-- The category that comes first has the first line, however many findings it has. -/
theorem text_breakdown_interleaved :
    breakdown [remark .style, remark .security, remark .style] =
        ["- style: 2", "- security: 1"] ∧
      breakdown [remark .security, remark .style, remark .style] =
        ["- security: 1", "- style: 2"] ∧
      (breakdown [remark .style, remark .security, remark .style]).Perm
        (breakdown [remark .security, remark .style, remark .style]) := by
  obtain ⟨_, _, _, rearranged⟩ :=
    text_breakdown [remark .style, remark .security, remark .style]
  exact ⟨by decide, by decide, rearranged _ (.swap _ _ _)⟩

end ScriptAudit
