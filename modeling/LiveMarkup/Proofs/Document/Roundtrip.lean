import LiveMarkup.Proofs.Document.Parsing

/-! Reading undoes writing: the markup of a document is read into a document that shows the same
trees, but for empty texts and texts side by side, which markup does not tell from none and from
one. Documents that were read have neither. -/
namespace LiveMarkup

open LiveMarkup.Tree (joined joinedAll)
open LiveMarkup.Markup (slotEvents)

theorem Tree.sizeAll_textTrees (gathered : String) :
    sizeAll (textTrees gathered) = if gathered = "" then 0 else 1 := by
  unfold textTrees
  split <;> simp [sizeAll, size]

namespace Document

variable {d : Document}

/-- What is read from written trees is their joined row. -/
theorem content_of_read_markupAll {tree : TreeId} {row : List Tree}
    (hrow : Tree.WellNamedAll row) (hmark : (Tree.markupAll row).head? ≠ some '\ufeff')
    (h : read tree (String.ofList (Tree.markupAll row)) = .ok d) :
    d.content = joinedAll "" row := by
  obtain ⟨events, hspells, hevents⟩ := Markup.exists_spells_events hrow hmark
  rw [read, hevents] at h
  rw [(content_of_nests h hspells.nests).1, Tree.joinedAll_joinedAll]

end Document

end LiveMarkup
