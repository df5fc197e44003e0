import LiveMarkup.Proofs.Document.Placement
import LiveMarkup.Proofs.Row

/-! Replacing the direct text of a node. On anything but a text it takes the text children away and
puts the new one where the first of them stood; it fails only for want of slots, and then nothing
has changed. On a text it is the one edit that can fail halfway. -/
namespace LiveMarkup

def Shape.isText : Shape → Bool
  | ⟨_, .text _, _, _⟩ => true
  | _ => false

/-- A text of its own for anything but the empty text. -/
def Shape.OneText (content : String) (new : List Shape) : Prop :=
  content = "" ∧ new = [] ∨ content ≠ "" ∧ ∃ t, new = [⟨t, .text content, [], []⟩]

theorem Shape.OneText.isText {content : String} {new : List Shape} (h : OneText content new) :
    ∀ x ∈ new, x.isText = true := by
  obtain ⟨-, rfl⟩ | ⟨-, t, rfl⟩ := h
  · exact nofun
  · exact List.forall_mem_singleton.2 rfl

theorem Shape.In.isSome_text? {d : Document} {p : Option NodeId} {s : Shape} (hs : s.In d p) :
    (d.text? s.id).isSome = s.isText := by
  obtain ⟨id, kind, notes, kids⟩ := s
  cases kind <;> simp [Document.text?, hs.1, Shape.isText]

def Shape.content? : Shape → Option String
  | ⟨_, .text content, _, _⟩ => some content
  | _ => none

theorem Shape.OneText.filterMap_content? {content : String} {new : List Shape}
    (h : Shape.OneText content new) :
    String.join ((new.filterMap Shape.content?).map Text.trim) = Text.trim content := by
  obtain ⟨rfl, rfl⟩ | ⟨-, t, rfl⟩ := h
  · rfl
  · simp [Shape.content?, String.join]

theorem Shape.filterMap_content?_replaceWhere {new : List Shape}
    (h : ∀ x ∈ new, x.isText = true) (kids : List Shape) :
    (replaceWhere Shape.isText new kids).filterMap Shape.content? = new.filterMap content? := by
  have hkeep : ∀ l : List Shape, l.filterMap content? = (l.filter isText).filterMap content? := by
    intro l
    rw [List.filterMap_filter]
    refine List.filterMap_congr fun ⟨id, kind, notes, kids⟩ _ => ?_
    cases kind <;> rfl
  rw [hkeep, filter_picked_replaceWhere h]

theorem Shape.In.text? {d : Document} {p : Option NodeId} {s : Shape} (hs : s.In d p) :
    d.text? s.id = s.content? := by
  obtain ⟨id, kind, notes, kids⟩ := s
  cases kind <;> simp [Document.text?, hs.1, Shape.content?]

namespace Document

variable {d d' : Document} {id x : NodeId} {p : Option NodeId} {n : Node} {kind : NodeKind}
  {notes : List (String × String)} {kids left ss : List Shape} {content : String}

theorem allocate_of_no_room (hd : d.Accounted) (hroom : ¬ d.HasRoom) (kind : NodeKind) :
    d.allocate kind = .error .outOfSlots :=
  (allocate_error_iff hd kind _).2 ⟨rfl, hroom⟩

/-- Taking some children away, seen from the node they hang from. -/
theorem Sound.forM_remove_in (hd : d.Sound) (hs : (⟨id, kind, notes, kids⟩ : Shape).In d p)
    (hsub : left.Sublist kids) (hperm : (ss ++ left).Perm kids) :
    ∃ d', (ss.map Shape.id).forM (fun id => Edit.apply (·.remove id)) d = .ok ⟨⟩ d' ∧ d'.Sound ∧
      (ss = [] ∧ d' = d ∨ d'.HasRoom) ∧ (⟨id, kind, notes, left⟩ : Shape).In d' p ∧
      d.Replaces d' (id :: Shape.idsAll kids) (id :: Shape.idsAll left) := by
  have hmem : ∀ {s}, s ∈ ss → s ∈ kids := fun h => hperm.subset (List.mem_append_left _ h)
  have hss : Shape.InAll d (some id) ss :=
    Shape.inAll_iff.2 fun s h => Shape.inAll_iff.1 hs.2 s (hmem h)
  have hids := hperm.map Shape.id
  rw [List.map_append] at hids
  have hnodup := hids.nodup_iff.2 (hd.nodup hs.1)
  obtain ⟨d', hok, hsound, hroom, htree, hnode⟩ :=
    hd.forM_remove hss (List.nodup_append'.1 hnodup).1
  have hleft : (kids.map Shape.id).filter (· ∉ ss.map Shape.id) = left.map Shape.id :=
    filter_not_mem_of_perm (hd.nodup hs.1) (hsub.map _) hids
  have hperm' := Shape.idsAll_perm hperm
  rw [Shape.idsAll_append] at hperm'
  have hdisj := (List.nodup_append'.1
    (hperm'.nodup_iff.2 (List.nodup_cons.1 (hd.nodup_ids hs)).2)).2.2
  have hid : id ∉ Shape.idsAll ss := fun h =>
    hd.not_mem_idsAll hs (hperm'.subset (List.mem_append_left _ h))
  refine ⟨d', hok, hsound, hroom, ⟨?_, ?_⟩, htree, ?_, ?_, ?_⟩
  · rw [hnode, if_neg hid, hs.1]
    simp only [Option.map_some, if_true, hleft]
  · refine Shape.InAll.congr (d := d) (Shape.inAll_iff.2 fun s h =>
      Shape.inAll_iff.1 hs.2 s (hsub.subset h)) fun x hx => ?_
    have hxid : x ≠ id := by
      rintro rfl
      exact hd.not_mem_idsAll hs (hperm'.subset (List.mem_append_right _ hx))
    rw [hnode, if_neg fun h => hdisj h hx]
    simp [hxid]
  · intro x hold hnew
    rw [List.mem_cons, not_or] at hold
    rw [hnode, if_neg fun h => hold.2 (hperm'.subset (List.mem_append_left _ h))]
    simp [hold.1]
  · intro x hx
    refine Or.inl ?_
    rcases List.mem_cons.1 hx with rfl | hx
    · exact List.mem_cons_self ..
    · exact List.mem_cons_of_mem _ (hperm'.subset (List.mem_append_right _ hx))
  · intro x hx
    rcases List.mem_cons.1 hx with rfl | hx
    · exact Or.inl (List.mem_cons_self ..)
    · rcases List.mem_append.1 (hperm'.symm.subset hx) with hx | hx
      · exact Or.inr (by rw [hnode, if_pos hx])
      · exact Or.inl (List.mem_cons_of_mem _ hx)

/-- A new text, seen from the node it hangs from. -/
theorem Sound.insertText_in (hd : d.Sound) (hs : (⟨id, kind, notes, kids⟩ : Shape).In d p)
    (hkind : ∀ s, kind ≠ .text s) (before : Nat) (content : String) :
    (¬ d.HasRoom ∧ insertText id before content d = .error .outOfSlots d) ∨
    ∃ t d', insertText id before content d = .ok () d' ∧ d'.Sound ∧
      (⟨id, kind, notes, kids.take before ++ ⟨t, .text content, [], []⟩ :: kids.drop before⟩ :
        Shape).In d' p ∧
      d.Replaces d' (id :: Shape.idsAll kids)
        (id :: Shape.idsAll (kids.take before ++ ⟨t, .text content, [], []⟩ ::
          kids.drop before)) := by
  cases hmake : d.createText content with
  | error e =>
    obtain ⟨rfl, hfull⟩ := (allocate_error_iff hd.accounted _ e).1 hmake
    refine Or.inl ⟨hfull, bind_eq_of_error ?_⟩
    simp only [Edit.create, hmake]
  | ok r =>
    obtain ⟨t, d₁⟩ := r
    obtain ⟨ht, hrep⟩ := hd.allocate_in hmake
    have hnone : d.node? t = none :=
      (hrep.fresh t (List.mem_singleton_self t)).resolve_left List.not_mem_nil
    have hne : id ≠ t := by
      rintro rfl
      cases hnone.symm.trans hs.1
    have hplace : ∀ l : List NodeId, (l.take before ++ t :: l.drop before).Perm (t :: l) := fun l =>
      List.perm_middle.trans (by rw [List.take_append_drop])
    have hperm : (kids.take before ++ ⟨t, .text content, [], []⟩ :: kids.drop before).Perm
        (⟨t, .text content, [], []⟩ :: kids) :=
      List.perm_middle.trans (by rw [List.take_append_drop])
    obtain ⟨hcheck, hsound, hin, hrep₁⟩ := (hd.createText hmake).move_in
      (hs.of_replaces hrep (List.disjoint_nil_right _)) hkind ht (hd.ne_root hnone)
      (fun h => hne (List.mem_singleton.1 h)) hplace
      (by rw [List.map_append, List.map_cons, List.map_take, List.map_drop, Shape.id_mk])
      hperm
    rw [Shape.id_mk] at hcheck hsound hin hrep₁
    have hcreate : Edit.create (·.createText content) d = .ok t d₁ := by
      simp only [Edit.create, hmake]
    refine Or.inr ⟨t, _, (bind_eq_of_ok hcreate).trans ?_, hsound, hin,
      (hrep.append_right (id :: Shape.idsAll kids)).trans hrep₁⟩
    simp only [Edit.apply, hcheck, Bind.bind, Except.bind, Pure.pure, Except.pure]

theorem setDirectText_of_dead (h : d.node? id = none) :
    setDirectText id content d = .error (.unknownNode id) d := by
  have hdead : (!d.contains id) = true := by rw [not_contains_iff.2 h, Bool.not_false]
  exact congrFun (if_pos hdead) d

/-- How many children stand in front of the first text child. -/
def textPlace (d : Document) (id : NodeId) : Nat :=
  match d.childTexts id with
  | [] => 0
  | first :: _ => ((d.children id).takeWhile (· ≠ first)).length

theorem setDirectText_of_live (h : d.contains id = true) : setDirectText id content d =
    ((d.childTexts id).forM (fun text => Edit.apply (·.remove text)) >>= fun _ =>
      if content ≠ "" then insertText id (d.textPlace id) content else pure ()) d := by
  have hlive : ¬ (!d.contains id) = true := by rw [h]; decide
  exact congrFun (if_neg hlive) d

/-- On a text, the new text is made before its place is refused. -/
theorem Sound.setDirectText_of_text (hd : d.Sound) {s : String}
    (hs : (⟨id, .text s, notes, kids⟩ : Shape).In d p) (content : String) :
    setDirectText id content d =
      if content = "" then .ok () d
      else match d.createText content with
        | .ok (_, d') => .error .childOfText d'
        | .error e => .error e d := by
  have hchildren : d.childTexts id = [] := by
    have hvalid : kids.map Shape.id = [] := hd.valid hs.1
    rw [childTexts, children_of_node? hs.1, hvalid, List.filter_nil]
  rw [setDirectText_of_live (contains_iff.2 ⟨_, hs.1⟩), hchildren]
  by_cases hcontent : content = ""
  · simp only [hcontent, ne_eq, not_true, if_false, if_true]
    rfl
  · change (ite _ _ _ : Edit Unit) d = _
    rw [if_pos hcontent, if_neg hcontent]
    cases hmake : d.createText content with
    | error e =>
      refine bind_eq_of_error ?_
      simp only [Edit.create, hmake]
    | ok r =>
      obtain ⟨t, d'⟩ := r
      have hok : Edit.create (·.createText content) d = .ok t d' := by
        simp only [Edit.create, hmake]
      refine (bind_eq_of_ok hok).trans ?_
      obtain ⟨ht, hnode⟩ := node?_allocate hd.accounted hmake
      have hid : d'.node? id = d.node? id := by
        rw [hnode, if_neg]
        rintro rfl
        rw [hs.1] at ht
        cases ht
      have hlive : d'.contains t = true := contains_iff.2 ⟨_, by rw [hnode, if_pos rfl]⟩
      have hroot : t ≠ .root := hd.ne_root ht
      have hcheck : d'.checkPlacement id t = .error .childOfText := by
        have hparent : d'.contains id = true := contains_iff.2 ⟨_, hid.trans hs.1⟩
        have htext : (d'.text? id).isSome = true := by simp [text?, hid, hs.1]
        simp [checkPlacement, hparent, hlive, hroot, htext]
      simp only [Edit.apply, hcheck, Bind.bind, Except.bind]

theorem childTexts_eq (hs : (⟨id, kind, notes, kids⟩ : Shape).In d p) :
    d.childTexts id = (kids.filter Shape.isText).map Shape.id := by
  rw [childTexts, children_of_node? hs.1, List.filter_map]
  congr 1
  exact List.filter_congr fun c hc => (Shape.inAll_iff.1 hs.2 c hc).isSome_text?

theorem directText_of_shape (hs : (⟨id, kind, notes, kids⟩ : Shape).In d p) :
    d.directText id = String.join ((kids.filterMap Shape.content?).map Text.trim) := by
  rw [directText, children_of_node? hs.1, List.filterMap_map]
  exact congrArg (fun l => String.join (List.map Text.trim l))
    (List.filterMap_congr fun c hc => (Shape.inAll_iff.1 hs.2 c hc).text?)

/-- Where the texts are taken away, a row put in at their place replaces them. -/
theorem Sound.replaceWhere_eq (hd : d.Sound) (hs : (⟨id, kind, notes, kids⟩ : Shape).In d p)
    (new : List Shape) : replaceWhere Shape.isText new kids =
      (kids.filter (!·.isText)).take (d.textPlace id) ++ new ++
        (kids.filter (!·.isText)).drop (d.textPlace id) := by
  rw [textPlace, childTexts_eq hs, children_of_node? hs.1]
  rcases none_or_first Shape.isText kids with hnone | ⟨before, a, rest, rfl, hbefore, ha⟩
  · rw [replaceWhere_of_none hnone, List.filter_eq_nil_iff.2 fun c hc => by simp [hnone c hc],
      List.filter_eq_self.2 fun c hc => by simp [hnone c hc]]
    rfl
  · have hkept : (before ++ a :: rest).filter (!·.isText) = before ++ rest.filter (!·.isText) := by
      rw [List.filter_append, List.filter_eq_self.2 fun c hc => by simp [hbefore c hc],
        List.filter_cons_of_neg (by simp [ha])]
    have hfirst : (before ++ a :: rest).filter Shape.isText = a :: rest.filter Shape.isText := by
      rw [List.filter_append, List.filter_eq_nil_iff.2 fun c hc => by simp [hbefore c hc],
        List.filter_cons_of_pos ha, List.nil_append]
    have hplace : (((before ++ a :: rest).map Shape.id).takeWhile (· ≠ a.id)).length =
        before.length := by
      have hnodup := hd.nodup hs.1
      rw [List.map_append, List.map_cons, List.nodup_append'] at hnodup
      rw [List.map_append, List.map_cons, takeWhile_ne_append_cons, List.length_map]
      exact fun hmem => hnodup.2.2 hmem (List.mem_cons_self ..)
    rw [hkept, hfirst, List.map_cons]
    dsimp only
    rw [hplace, List.take_left, List.drop_left, replaceWhere_append_cons hbefore ha]

/-- A new text below a node finds a slot: a free one, or that of a text which makes way for it. -/
def HasTextRoom (d : Document) (id : NodeId) : Prop := d.HasRoom ∨ d.childTexts id ≠ []

theorem HasTextRoom.of_in {d' : Document} {kind' : NodeKind} {notes' : List (String × String)}
    (hs : (⟨id, kind, notes, kids⟩ : Shape).In d p)
    (hs' : (⟨id, kind', notes', kids⟩ : Shape).In d' p) (hroom : d'.HasRoom ↔ d.HasRoom) :
    d'.HasTextRoom id ↔ d.HasTextRoom id := by
  rw [HasTextRoom, HasTextRoom, hroom, childTexts_eq hs, childTexts_eq hs']

/-- On anything else, the new text replaces the text children at the place of the first one, and
so there is room for the next one. -/
theorem Sound.setDirectText (hd : d.Sound) (hs : (⟨id, kind, notes, kids⟩ : Shape).In d p)
    (hkind : ∀ s, kind ≠ .text s) (content : String) :
    (¬ d.HasTextRoom id ∧ content ≠ "" ∧
      Document.setDirectText id content d = .error .outOfSlots d) ∨
    ∃ d' new, Document.setDirectText id content d = .ok () d' ∧ d'.Sound ∧
      Shape.OneText content new ∧ (d.HasTextRoom id → d'.HasTextRoom id) ∧
      (⟨id, kind, notes, replaceWhere Shape.isText new kids⟩ : Shape).In d' p ∧
      d.Replaces d' (id :: Shape.idsAll kids)
        (id :: Shape.idsAll (replaceWhere Shape.isText new kids)) := by
  obtain ⟨d₁, hok₁, hsound₁, hroom₁, hin₁, hrep₁⟩ := hd.forM_remove_in hs
    List.filter_sublist (List.filter_append_perm Shape.isText kids)
  rw [← childTexts_eq hs] at hok₁
  rw [setDirectText_of_live (contains_iff.2 ⟨_, hs.1⟩), bind_eq_of_ok hok₁]
  by_cases hcontent : content = ""
  · rw [if_neg (not_not_intro hcontent)]
    refine Or.inr ⟨d₁, [], rfl, hsound₁, Or.inl ⟨hcontent, rfl⟩, fun h => Or.inl ?_, ?_, ?_⟩
    · obtain ⟨hnone, rfl⟩ | hroom := hroom₁
      · exact h.resolve_right (by simp [childTexts_eq hs, hnone])
      · exact hroom
    · rwa [replaceWhere_nil]
    · rwa [replaceWhere_nil]
  · rw [if_pos hcontent]
    rcases hsound₁.insertText_in hin₁ hkind (d.textPlace id) content with
      ⟨hfull, herror⟩ | ⟨t, d', hok, hsound, hin, hrep⟩
    · obtain ⟨hnone, rfl⟩ := hroom₁.resolve_right hfull
      refine Or.inl ⟨fun h => hfull (h.resolve_right ?_), hcontent, herror⟩
      simp [childTexts_eq hs, hnone]
    · have hnew : Shape.OneText content [⟨t, .text content, [], []⟩] := Or.inr ⟨hcontent, t, rfl⟩
      have hin' : (⟨id, kind, notes, replaceWhere Shape.isText [⟨t, .text content, [], []⟩] kids⟩ :
          Shape).In d' p := by
        rwa [hd.replaceWhere_eq hs, List.append_assoc]
      refine Or.inr ⟨d', _, hok, hsound, hnew, fun _ => Or.inr ?_, hin', ?_⟩
      · rw [childTexts_eq hin', filter_picked_replaceWhere hnew.isText]
        exact List.cons_ne_nil _ _
      · rw [hd.replaceWhere_eq hs, List.append_assoc]
        exact hrep₁.trans hrep

end Document
end LiveMarkup
