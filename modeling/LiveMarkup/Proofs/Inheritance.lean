import LiveMarkup.Proofs.Document.Reachable
import LiveMarkup.Render

/-! Directives that were there before. Edits give no element another tag, so a directive that is found
after an edit was found there before, unless it was just made. -/
namespace LiveMarkup

namespace Document

variable {s : Settings} {d d' : Document} {id p c r x : NodeId}

/-- One document has become another, and the directives in it are those of old. -/
structure Inherits (s : Settings) (d d' : Document) : Prop where
  sound : d.Sound → d'.Sound
  tree : d'.tree = d.tree
  directive : ∀ x directive, d'.directive? s x = some directive → d.directive? s x = some directive

instance : Std.Refl (Inherits s) := ⟨fun _ => ⟨fun h => h, rfl, fun _ _ h => h⟩⟩

instance : IsTrans Document (Inherits s) where
  trans _ _ _ h h' := ⟨fun hd => h'.sound (h.sound hd), h'.tree.trans h.tree,
    fun x directive hx => h.directive x directive (h'.directive x directive hx)⟩

theorem directive?_eq_of_tagName? (h : d'.tagName? x = d.tagName? x) :
    d'.directive? s x = d.directive? s x := by
  rw [directive?, directive?, h]

theorem Inherits.none (h : d.Inherits s d') (hx : d.directive? s x = none) :
    d'.directive? s x = none := by
  cases hx' : d'.directive? s x with
  | none => rfl
  | some directive => cases hx.symm.trans (h.directive x directive hx')

namespace Inherits

theorem of_tagName? (hd' : d'.Sound) (htree : d'.tree = d.tree)
    (h : ∀ x, d'.tagName? x = d.tagName? x) : d.Inherits s d' :=
  ⟨fun _ => hd', htree, fun x _ hx => (directive?_eq_of_tagName? (h x)).symm.trans hx⟩

theorem setNote {key value : String} (hd : d.Sound) (h : d.setNote id key value = .ok d') :
    d.Inherits s d' := by
  obtain ⟨-, -, -, htree, -⟩ := setNote_eq_ok h
  exact of_tagName? (hd.setNote h) htree (tagName?_setNote h)

theorem setAttribute {name value : String} (hd : d.Sound)
    (h : d.setAttribute id name value = .ok d') : d.Inherits s d' := by
  obtain ⟨-, -, -, -, -, -, -, htree, -⟩ := setAttribute_eq_ok h
  exact of_tagName? (hd.setAttribute h) htree (tagName?_setAttribute h)

theorem place {place : List NodeId → List NodeId} (hd : d.Sound)
    (hplace : ∀ l, (place l).Perm (c :: l)) (h : (do
      d.checkPlacement p c
      Pure.pure ((d.detach c).attach p c place)) = Except.ok d') : d.Inherits s d' := by
  obtain ⟨hd', htree, -⟩ := hd.place_eq_ok hplace h
  exact of_tagName? hd' htree (hd.tagName?_place hplace h)

theorem append (hd : d.Sound) (h : d.append p c = .ok d') : d.Inherits s d' :=
  place hd (fun l => List.perm_append_singleton c l) h

theorem insertBefore (hd : d.Sound) (h : d.insertBefore p c r = .ok d') : d.Inherits s d' := by
  obtain rfl | h := insertBefore_eq_ok h
  · exact Std.Refl.refl _
  · exact place hd (perm_placeBefore c r) h

theorem remove (hd : d.Sound) (h : d.remove id = .ok d') : d.Inherits s d' := by
  obtain ⟨-, hd', hnode⟩ := hd.remove_eq_ok h
  refine ⟨fun _ => hd', remove_tree h, fun x directive hx => ?_⟩
  by_cases habove : d.Above id x
  · rw [directive?, tagName?, (hnode x).1 habove] at hx
    cases hx
  · rwa [directive?_eq_of_tagName? (tagName?_congr ?_)] at hx
    rw [(hnode x).2 habove, Option.map_map]
    rfl

theorem allocate {kind : NodeKind} (hd : d.Sound) (hd' : d'.Sound)
    (h : d.allocate kind = .ok (id, d')) (hkind : ∀ tag attributes,
      kind = .element tag attributes → s.directive? tag = .none) : d.Inherits s d' := by
  obtain ⟨-, hnode⟩ := node?_allocate hd.accounted h
  refine ⟨fun _ => hd', allocate_tree h, fun x directive hx => ?_⟩
  rw [directive?, tagName?, hnode] at hx
  split at hx
  · cases kind with
    | root => cases hx
    | text content => cases hx
    | element tag attributes => cases (hkind tag attributes rfl).symm.trans hx
  · exact hx

theorem createElement {tag : String} (hd : d.Sound) (htag : s.directive? tag = .none)
    (h : d.createElement tag = .ok (id, d')) : d.Inherits s d' := by
  have hd' := hd.createElement h
  rw [Document.createElement] at h
  split at h
  · exact allocate hd hd' h fun _ _ hkind => by
      cases hkind
      exact htag
  · cases h

theorem setDirectText (hd : d.Sound) (id : NodeId) (content : String) :
    Moves (Inherits s) (Document.setDirectText id content) d fun _ _ => True := by
  refine moves_setDirectText (fun _ _ _ _ h => remove (h.sound hd)) fun {d₁ d₂ text} h hmake => ?_
  have hd₂ := (h.sound hd).createText hmake
  refine ⟨allocate (h.sound hd) hd₂ hmake fun _ _ hkind => ?_, place hd₂⟩
  cases hkind

end Inherits

end Document
end LiveMarkup
