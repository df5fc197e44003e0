import Mathlib.Data.List.Induction
import LiveMarkup.Proofs.Document.Rooted
import LiveMarkup.Proofs.Exposed
import LiveMarkup.Report

/-! What the listing of directives tells. It has an entry for each directive of a document without
loose nodes, and the names that it finds unresolved are those that recursive templates use and none
defines. -/
namespace LiveMarkup

variable {s : Settings} {d : Document} {name : String} {reports : List Report}

namespace Report

theorem firsts_append (names others : List String) : firsts (names ++ others) =
    others.foldl (fun kept name => if name ∈ kept then kept else kept ++ [name]) (firsts names) :=
  List.foldl_append

/-- Of each name the first occurrence is kept, and nothing else. -/
theorem firsts_spec (names : List String) :
    (firsts names).Nodup ∧ ∀ name, name ∈ firsts names ↔ name ∈ names := by
  induction names using List.reverseRecOn with
  | nil => exact ⟨List.nodup_nil, fun _ => Iff.rfl⟩
  | append_singleton names last ih =>
    obtain ⟨hnodup, hmem⟩ := ih
    rw [firsts_append, List.foldl_cons, List.foldl_nil]
    split
    · next hlast =>
      refine ⟨hnodup, fun name => ?_⟩
      rw [hmem, List.mem_append, List.mem_singleton]
      refine ⟨Or.inl, fun h => h.elim id ?_⟩
      rintro rfl
      exact (hmem name).1 hlast
    · next hlast =>
      refine ⟨?_, fun name => by rw [List.mem_append, List.mem_append, hmem]⟩
      rw [List.nodup_append']
      exact ⟨hnodup, List.nodup_singleton last, List.disjoint_singleton.2 hlast⟩

theorem mem_defined_iff : name ∈ defined reports ↔
    ∃ r ∈ reports, r.directive = .recursive ∧ r.attribute? "name" = some name := by
  simp [defined, and_assoc]

theorem mem_used_iff : name ∈ used reports ↔
    ∃ r ∈ reports, r.directive = .recursive ∧ r.attribute? "use" = some name ∧
      r.attribute? "name" = none := by
  simp only [used, List.mem_filterMap, List.mem_filter, decide_eq_true_eq,
    Option.isNone_iff_eq_none]
  exact exists_congr fun r => by tauto

theorem mem_unresolved_iff :
    name ∈ unresolved reports ↔ name ∈ used reports ∧ name ∉ defined reports := by
  rw [unresolved, (firsts_spec _).2, List.mem_filter, decide_eq_true_eq]

theorem ofTrees_append (s : Settings) (depth : Nat) (trees others : List Tree) :
    ofTrees s depth (trees ++ others) = ofTrees s depth trees ++ ofTrees s depth others := by
  induction trees with
  | nil => rfl
  | cons tree trees ih => rw [List.cons_append, ofTrees, ofTrees, ih, List.append_assoc]

end Report

namespace Shape

variable {p : Option NodeId} {asked : Directive → List (String × String) → Prop}

/-- What is asked of directives, one shape after another. -/
theorem exists_report_iff_of_forall {kids : List Shape} (depth : Nat)
    (h : ∀ x ∈ kids, (∃ r ∈ Report.ofTrees s depth x.trees, asked r.directive r.attributes) ↔
      ∃ id ∈ x.ids, ∃ directive, d.directive? s id = some directive ∧
        asked directive (d.attributes id)) :
    (∃ r ∈ Report.ofTrees s depth (treesAll kids), asked r.directive r.attributes) ↔
      ∃ id ∈ idsAll kids, ∃ directive, d.directive? s id = some directive ∧
        asked directive (d.attributes id) := by
  induction kids with
  | nil => simp [treesAll, idsAll, Report.ofTrees]
  | cons x kids ih =>
    rw [List.forall_mem_cons] at h
    rw [treesAll, Report.ofTrees_append, idsAll]
    simp only [List.mem_append, or_and_right, exists_or, h.1, ih h.2]

/-- The entries for a shape are those of the directives among its nodes. -/
theorem In.exists_report_iff {x : Shape} (hd : d.Sound) (hx : x.In d p)
    (asked : Directive → List (String × String) → Prop) (depth : Nat) :
    (∃ r ∈ Report.ofTrees s depth x.trees, asked r.directive r.attributes) ↔
      ∃ id ∈ x.ids, ∃ directive, d.directive? s id = some directive ∧
        asked directive (d.attributes id) := by
  induction x generalizing p depth with
  | mk id kind notes kids ih =>
    have hkids := fun depth => exists_report_iff_of_forall depth fun c hc =>
      ih c hc (inAll_iff.1 hx.2 c hc) depth
    rw [ids]
    simp only [List.mem_cons, or_and_right, exists_or, exists_eq_left]
    rw [← hkids depth]
    cases kind with
    | root => simp [trees, Document.directive?, Document.tagName?, hx.1]
    | text content =>
      have hnone : kids.map Shape.id = [] := hd.valid hx.1
      obtain rfl := List.map_eq_nil_iff.1 hnone
      simp [trees, treesAll, Report.ofTrees, Report.ofTree, Document.directive?,
        Document.tagName?, hx.1]
    | element tag attributes =>
      have hattributes : d.attributes id = attributes := by rw [Document.attributes, hx.1]
      rw [trees, Report.ofTrees, Report.ofTrees, List.append_nil, Report.ofTree,
        Document.directive?_eq hx, hattributes]
      cases s.directive? tag with
      | none => simp
      | some directive =>
        simp only [List.mem_cons, or_and_right, exists_or, exists_eq_left, Option.some.injEq,
          exists_eq_left']
        rw [hkids (depth + 1), hkids depth]

end Shape

namespace Document

/-- A document without loose nodes has an entry for each of its directives. -/
theorem Rooted.exists_report_iff (h : d.Rooted) (hd : d.Sound)
    (asked : Directive → List (String × String) → Prop) :
    (∃ r ∈ Report.ofDocument s d, asked r.directive r.attributes) ↔
      ∃ x directive, d.directive? s x = some directive ∧ asked directive (d.attributes x) := by
  obtain ⟨notes, kids, hs, hcontent⟩ := hd.exists_content
  have hreports := hs.exists_report_iff (s := s) hd asked 0
  rw [Shape.trees, ← hcontent] at hreports
  rw [Report.ofDocument, hreports]
  refine exists_congr fun x => and_iff_right_of_imp ?_
  rintro ⟨directive, hx, -⟩
  have hlive := contains_of_directive? (s := s) (Option.isSome_of_eq_some hx)
  exact (hd.rooted_iff_ids hs rfl).1 h x hlive

theorem Rooted.exists_recursive_iff (h : d.Rooted) (hd : d.Sound)
    (asked : List (String × String) → Prop) :
    (∃ r ∈ Report.ofDocument s d, r.directive = .recursive ∧ asked r.attributes) ↔
      ∃ x, d.directive? s x = some .recursive ∧ asked (d.attributes x) := by
  rw [h.exists_report_iff hd fun directive attributes => directive = .recursive ∧ asked attributes]
  refine exists_congr fun x => ⟨?_, fun ⟨hx, hasked⟩ => ⟨_, hx, rfl, hasked⟩⟩
  rintro ⟨_, hx, rfl, hasked⟩
  exact ⟨hx, hasked⟩

/-- The names that are found unresolved in a document without loose nodes. -/
theorem Rooted.mem_unresolved_iff (h : d.Rooted) (hd : d.Sound) :
    name ∈ Report.unresolved (Report.ofDocument s d) ↔
      (∃ x, d.directive? s x = some .recursive ∧ d.attribute? x "use" = some name ∧
        d.attribute? x "name" = none) ∧
      ∀ x, d.directive? s x = some .recursive → d.attribute? x "name" ≠ some name := by
  have hused := h.exists_recursive_iff (s := s) hd fun attributes =>
    Entries.get? "use" attributes = some name ∧ Entries.get? "name" attributes = none
  have hdefined := h.exists_recursive_iff (s := s) hd fun attributes =>
    Entries.get? "name" attributes = some name
  rw [Report.mem_unresolved_iff, Report.mem_used_iff, Report.mem_defined_iff]
  refine and_congr hused ((not_congr hdefined).trans ?_)
  rw [not_exists]
  exact forall_congr' fun x => not_and

end Document
end LiveMarkup
