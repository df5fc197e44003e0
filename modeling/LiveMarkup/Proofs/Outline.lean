import LiveMarkup.Proofs.Denotation

/-! Outlines: what a rendering sees below a node and what it makes of it, without addresses.
Elements outside directives are plain; a directive outside the others is an anchor, and the run of
trees that it generated last stands right before it. -/
namespace LiveMarkup

inductive Outline where
  | text (content : String)
  /-- A plain element with its attributes as they are, their sources and that of its text. -/
  | plain (tag : String) (attributes sources : List (String × String)) (source : String)
      (inner : List Outline)
  /-- An anchor with what it is expanded from, what is in it and the run before it. -/
  | anchor (tag : String) (attributes : List (String × String)) (template : Template)
      (inside run : List Tree)

namespace Outline

mutual

def trees : Outline → List Tree
  | text content => [.text content]
  | plain tag attributes _ _ inner => [.element tag attributes (treesAll inner)]
  | anchor tag attributes _ inside run => run ++ [.element tag attributes inside]

def treesAll : List Outline → List Tree
  | [] => []
  | l :: rest => l.trees ++ treesAll rest

end

def isText : Outline → Bool
  | text _ => true
  | _ => false

/-- A text of its own for anything but the empty text. -/
def oneText (content : String) : List Outline :=
  if content = "" then [] else [text content]

/-- The direct text of a row, replaced by what a source shows, if it has placeholders. -/
def placeText (source : String) (model : Value) (scope : Scope) (inner : List Outline) :
    List Outline :=
  if Placeholder.appearsIn source then
    replaceWhere isText (oneText (Placeholder.fill source model scope)) inner
  else inner

mutual

/-- What a rendering makes of an outline, and the registry that it leaves. -/
def render (s : Settings) (model : Value) (scope : Scope) :
    Outline → Registry → Outline × Registry
  | text content, registry => (text content, registry)
  | plain tag _ sources source inner, registry =>
    let (inner, registry) := renderAll s model scope inner registry
    (plain tag (sources.map fun a => (a.1, Placeholder.filled a.2 model scope)) sources source
      (placeText source model scope inner), registry)
  | anchor tag attributes template inside _, registry =>
    let (run, registry) := template.meaning s 0 model scope registry
    (anchor tag (Entries.put s.hiddenAttribute "" attributes) template inside run, registry)

def renderAll (s : Settings) (model : Value) (scope : Scope) :
    List Outline → Registry → List Outline × Registry
  | [], registry => ([], registry)
  | l :: rest, registry =>
    let (l, registry) := render s model scope l registry
    let (rest, registry) := renderAll s model scope rest registry
    (l :: rest, registry)

end

mutual

/-- How deep plain elements stand inside each other. -/
def depth : Outline → Nat
  | plain _ _ _ _ inner => depthAll inner + 1
  | _ => 0

def depthAll : List Outline → Nat
  | [] => 0
  | l :: rest => max l.depth (depthAll rest)

end

variable {s : Settings} {model : Value} {scope : Scope} {registry : Registry} {ls ms : List Outline}

theorem render_plain (tag source : String) (attributes sources : List (String × String))
    (inner : List Outline) (registry : Registry) :
    render s model scope (plain tag attributes sources source inner) registry =
      (plain tag (sources.map fun a => (a.1, Placeholder.filled a.2 model scope)) sources source
        (placeText source model scope (renderAll s model scope inner registry).1),
        (renderAll s model scope inner registry).2) := by
  rw [render]

theorem render_anchor (tag : String) (attributes : List (String × String)) (template : Template)
    (inside run : List Tree) (registry : Registry) :
    render s model scope (anchor tag attributes template inside run) registry =
      (anchor tag (Entries.put s.hiddenAttribute "" attributes) template inside
        (template.meaning s 0 model scope registry).1,
        (template.meaning s 0 model scope registry).2) := by
  rw [render]

theorem renderAll_cons (l : Outline) (rest : List Outline) (registry : Registry) :
    renderAll s model scope (l :: rest) registry =
      ((render s model scope l registry).1 ::
        (renderAll s model scope rest (render s model scope l registry).2).1,
        (renderAll s model scope rest (render s model scope l registry).2).2) := by
  rw [renderAll]

/-- Induction on the plain elements of an outline. -/
@[elab_as_elim, induction_eliminator]
theorem induction {motive : Outline → Prop} (text : ∀ content, motive (text content))
    (plain : ∀ tag attributes sources source inner, (∀ l ∈ inner, motive l) →
      motive (plain tag attributes sources source inner))
    (anchor : ∀ tag attributes template inside run,
      motive (anchor tag attributes template inside run)) : ∀ l, motive l := by
  refine @Outline.rec motive (fun ls => ∀ l ∈ ls, motive l) text plain anchor (fun l hl => ?_)
    fun l rest hl hrest m hm => ?_
  · cases hl
  · rcases List.mem_cons.1 hm with rfl | hm
    · exact hl
    · exact hrest m hm

theorem renderAll_append (ls ms : List Outline) (registry : Registry) :
    renderAll s model scope (ls ++ ms) registry =
      ((renderAll s model scope ls registry).1 ++
        (renderAll s model scope ms (renderAll s model scope ls registry).2).1,
        (renderAll s model scope ms (renderAll s model scope ls registry).2).2) := by
  induction ls generalizing registry with
  | nil => simp [renderAll]
  | cons l ls ih => simp [renderAll, ih]

theorem exists_of_isText {l : Outline} (h : l.isText = true) : ∃ content, l = text content := by
  cases l with
  | text content => exact ⟨content, rfl⟩
  | plain tag attributes sources source inner => cases h
  | anchor tag attributes template inside run => cases h

theorem render_of_isText {l : Outline} (h : l.isText = true) (registry : Registry) :
    render s model scope l registry = (l, registry) := by
  obtain ⟨content, rfl⟩ := exists_of_isText h
  rfl

/-- Texts are left as they are and are no matter to the registry. -/
theorem renderAll_of_texts (h : ∀ l ∈ ls, l.isText = true) (registry : Registry) :
    renderAll s model scope ls registry = (ls, registry) := by
  induction ls with
  | nil => rfl
  | cons l ls ih =>
    rw [List.forall_mem_cons] at h
    simp [renderAll, render_of_isText h.1, ih h.2]

theorem isText_render (l : Outline) (registry : Registry) :
    (render s model scope l registry).1.isText = l.isText := by
  cases l <;> simp [render, isText]

theorem renderAll_filter (ls : List Outline) (registry : Registry) :
    renderAll s model scope (ls.filter (!·.isText)) registry =
      ((renderAll s model scope ls registry).1.filter (!·.isText),
        (renderAll s model scope ls registry).2) := by
  induction ls generalizing registry with
  | nil => rfl
  | cons l ls ih =>
    cases hl : l.isText with
    | true => simp [renderAll, render_of_isText hl, hl, ih]
    | false => simp [renderAll, isText_render, hl, ih]

theorem forall_isText_renderAll (b : Bool) (ls : List Outline) (registry : Registry) :
    (∀ l ∈ (renderAll s model scope ls registry).1, l.isText = b) ↔ ∀ l ∈ ls, l.isText = b := by
  induction ls generalizing registry with
  | nil => simp [renderAll]
  | cons l ls ih => simp [renderAll, isText_render, ih]

/-- To replace texts and to render are independent of each other. -/
theorem renderAll_replaceWhere (h : ∀ l ∈ ms, l.isText = true) (ls : List Outline)
    (registry : Registry) : renderAll s model scope (replaceWhere isText ms ls) registry =
      (replaceWhere isText ms (renderAll s model scope ls registry).1,
        (renderAll s model scope ls registry).2) := by
  rcases none_or_first isText ls with hnone | ⟨before, l, rest, rfl, hbefore, hl⟩
  · rw [replaceWhere_of_none hnone, renderAll_append, renderAll_of_texts h,
      replaceWhere_of_none ((forall_isText_renderAll false ls registry).2 hnone)]
  · have hsingle : ∀ registry, renderAll s model scope (l :: rest) registry =
        (l :: (renderAll s model scope rest registry).1,
          (renderAll s model scope rest registry).2) := by
      intro registry
      have hone : renderAll s model scope [l] registry = ([l], registry) :=
        renderAll_of_texts (List.forall_mem_singleton.2 hl) registry
      have happend : renderAll s model scope (l :: rest) registry = _ :=
        renderAll_append [l] rest registry
      rwa [hone] at happend
    rw [replaceWhere_append_cons hbefore hl, renderAll_append, renderAll_append, renderAll_filter,
      renderAll_of_texts h, renderAll_append before, hsingle, replaceWhere_append_cons
        ((forall_isText_renderAll false before registry).2 hbefore) hl]

theorem isText_of_mem_oneText {content : String} {l : Outline} (h : l ∈ oneText content) :
    l.isText = true := by
  rw [oneText] at h
  split at h
  · cases h
  · rw [List.mem_singleton.1 h]
    rfl

theorem renderAll_placeText (source : String) (model' : Value) (scope' : Scope) (ls : List Outline)
    (registry : Registry) : renderAll s model scope (placeText source model' scope' ls) registry =
      (placeText source model' scope' (renderAll s model scope ls registry).1,
        (renderAll s model scope ls registry).2) := by
  rw [placeText, placeText]
  split
  · exact renderAll_replaceWhere (fun l hl => isText_of_mem_oneText hl) ls registry
  · rfl

theorem depthAll_le_iff {n : Nat} : depthAll ls ≤ n ↔ ∀ l ∈ ls, l.depth ≤ n := by
  induction ls with
  | nil => simp [depthAll]
  | cons l rest ih => simp [depthAll, ih]

theorem isText_or_mem_of_mem_placeText {source : String} {l : Outline}
    (h : l ∈ placeText source model scope ls) : l.isText = true ∨ l ∈ ls := by
  rw [placeText] at h
  split at h
  · exact (mem_of_mem_replaceWhere h).imp_left isText_of_mem_oneText
  · exact Or.inr h

theorem mem_placeText {source : String} {l : Outline} (h : l ∈ ls) (hl : l.isText = false) :
    l ∈ placeText source model scope ls := by
  rw [placeText]
  split
  · exact mem_replaceWhere h hl
  · exact h

theorem depthAll_placeText_le (source : String) (ls : List Outline) :
    depthAll (placeText source model scope ls) ≤ depthAll ls := by
  refine depthAll_le_iff.2 fun l hl => ?_
  rcases isText_or_mem_of_mem_placeText hl with htext | hl
  · obtain ⟨content, rfl⟩ := exists_of_isText htext
    exact Nat.zero_le _
  · exact depthAll_le_iff.1 (Nat.le_refl _) l hl

def content? : Outline → Option String
  | text content => some content
  | _ => none

theorem content?_render (l : Outline) (registry : Registry) :
    (render s model scope l registry).1.content? = l.content? := by
  cases l <;> simp [render, content?]

theorem filterMap_content?_renderAll (ls : List Outline) (registry : Registry) :
    (renderAll s model scope ls registry).1.filterMap content? = ls.filterMap content? := by
  induction ls generalizing registry with
  | nil => rfl
  | cons l rest ih => simp [renderAll, List.filterMap_cons, content?_render, ih]

mutual

/-- The runs that anchors made last, in document order. -/
def runs : Outline → List (List Tree)
  | text _ => []
  | plain _ _ _ _ inner => runsAll inner
  | anchor _ _ _ _ run => [run]

def runsAll : List Outline → List (List Tree)
  | [] => []
  | l :: rest => l.runs ++ runsAll rest

end

theorem runsAll_filter (ls : List Outline) : runsAll (ls.filter (!·.isText)) = runsAll ls := by
  induction ls with
  | nil => rfl
  | cons l rest ih =>
    cases hl : l.isText with
    | true =>
      obtain ⟨content, rfl⟩ := exists_of_isText hl
      rw [List.filter_cons_of_neg (by simp [hl]), ih]
      rfl
    | false => rw [List.filter_cons_of_pos (by simp [hl]), runsAll, runsAll, ih]

theorem runsAll_placeText (source : String) (ls : List Outline) :
    runsAll (placeText source model scope ls) = runsAll ls := by
  rw [placeText]
  split
  · rw [← runsAll_filter, filter_replaceWhere fun l hl => isText_of_mem_oneText hl, runsAll_filter]
  · rfl

end Outline
end LiveMarkup
