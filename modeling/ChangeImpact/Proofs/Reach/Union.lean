import ChangeImpact.Proofs.Reach.Exact

/-!
# Changes taken together

Two changes of one component reach together what each of them reaches on its own, and a larger
change reaches at least as much: no name, file or line is seen because two changes meet, and none
is lost. An import matches the two together exactly if it matches one of them, and a name that it
takes is taken from the change that has it; the rest follows because what is said about a
component is determined by the imports that match.
-/

namespace ChangeImpact

open Ordered (Enumerates)

/-! ## A larger change -/

theorem Import.Takes.mono {i : Import} {target : ParsedFile} {names names' : List String}
    {name : String} (h : i.Takes target names name) (hnames : names ⊆ names') :
    i.Takes target names' name :=
  ⟨hnames h.1, h.2⟩

namespace Change

/-- A change is part of another one of the same component. -/
structure Within (c c' : Change) : Prop where
  component : c'.component = c.component
  names : c.names ⊆ c'.names
  content : c.content = true → c'.content = true

variable {c c' c₁ c₂ : Change} {index : ExportIndex} {f g : IndexedFile} {i : Import}
  {name : String} {line : Nat}

theorem Matches.mono (h : c.Matches index f i g) (hc : c.Within c') : c'.Matches index f i g where
  mem := h.mem
  relative := h.relative
  target := h.target
  owner := hc.component ▸ h.owner
  touched := h.touched.imp (Exists.imp fun _ hname => hname.mono hc.names)
    (And.imp_right hc.content)

theorem Affects.mono (h : c.Affects index f) (hc : c.Within c') : c'.Affects index f :=
  h.imp fun _ => Exists.imp fun _ hm => hm.mono hc

theorem Takes.mono (h : c.Takes index f name) (hc : c.Within c') : c'.Takes index f name :=
  h.imp fun _ => Exists.imp fun _ hm => ⟨hm.1.mono hc, hm.2.mono hc.names⟩

theorem Knows.mono (h : c.Knows index f name) (hc : c.Within c') : c'.Knows index f name :=
  h.imp fun _ => Exists.imp fun _ hm => ⟨hm.1.mono hc, hm.2.imp_left (·.mono hc.names)⟩

theorem RefersAt.mono (h : c.RefersAt index f line) (hc : c.Within c') :
    c'.RefersAt index f line := by
  refine ⟨h.1, h.2.imp (fun ⟨i, g, hm, hline⟩ => ⟨i, g, hm.mono hc, hline⟩) ?_⟩
  rintro ⟨call, hcall, hline, name, hknows, hmentions⟩
  exact ⟨call, hcall, hline, name, hknows.mono hc, hmentions⟩

/-! ## Two changes -/

/-- Two changes of one component taken together. -/
def union (c₁ c₂ : Change) : Change :=
  { component := c₁.component
    names := Ordered.union c₁.names c₂.names
    content := c₁.content || c₂.content }

theorem within_union_left : c₁.Within (c₁.union c₂) where
  component := rfl
  names _ hname := Ordered.mem_union.mpr (Or.inl hname)
  content hcontent := by rw [union, hcontent, Bool.true_or]

theorem within_union_right (h : c₂.component = c₁.component) : c₂.Within (c₁.union c₂) where
  component := h.symm
  names _ hname := Ordered.mem_union.mpr (Or.inr hname)
  content hcontent := by rw [union, hcontent, Bool.or_true]

/-- A name that an import takes is a name of one of the two. -/
theorem takes_of_union (h : i.Takes g.parsed (c₁.union c₂).names name) :
    i.Takes g.parsed c₁.names name ∨ i.Takes g.parsed c₂.names name :=
  (Ordered.mem_union.mp h.1).imp (⟨·, h.2⟩) (⟨·, h.2⟩)

/-- An import that takes a name of one change matches that one, whatever made it match. -/
theorem Matches.of_takes (h : c.Matches index f i g) (hsame : c'.component = c.component)
    (hname : i.Takes g.parsed c'.names name) : c'.Matches index f i g where
  mem := h.mem
  relative := h.relative
  target := h.target
  owner := hsame ▸ h.owner
  touched := Or.inl ⟨name, hname⟩

section Union

variable (hsame : c₂.component = c₁.component)
include hsame

theorem matches_union_iff :
    (c₁.union c₂).Matches index f i g ↔ c₁.Matches index f i g ∨ c₂.Matches index f i g := by
  constructor
  · intro h
    obtain ⟨name, hname⟩ | ⟨hbinds, hcontent⟩ := h.touched
    · exact (takes_of_union hname).imp (h.of_takes rfl) (h.of_takes hsame)
    · rw [union, Bool.or_eq_true] at hcontent
      exact hcontent.imp
        (fun hc => ⟨h.mem, h.relative, h.target, h.owner, Or.inr ⟨hbinds, hc⟩⟩)
        (fun hc => ⟨h.mem, h.relative, h.target, hsame ▸ h.owner, Or.inr ⟨hbinds, hc⟩⟩)
  · rintro (h | h)
    · exact h.mono within_union_left
    · exact h.mono (within_union_right hsame)

theorem affects_union_iff :
    (c₁.union c₂).Affects index f ↔ c₁.Affects index f ∨ c₂.Affects index f := by
  simp only [Affects, matches_union_iff hsame, exists_or]

theorem takes_union_iff :
    (c₁.union c₂).Takes index f name ↔ c₁.Takes index f name ∨ c₂.Takes index f name := by
  constructor
  · rintro ⟨i, g, hm, hname⟩
    exact (takes_of_union hname).imp (fun h => ⟨i, g, hm.of_takes rfl h, h⟩)
      (fun h => ⟨i, g, hm.of_takes hsame h, h⟩)
  · rintro (h | h)
    · exact h.mono within_union_left
    · exact h.mono (within_union_right hsame)

theorem knows_union_iff :
    (c₁.union c₂).Knows index f name ↔ c₁.Knows index f name ∨ c₂.Knows index f name := by
  constructor
  · rintro ⟨i, g, hm, hname | hbound⟩
    · exact (takes_of_union hname).imp (fun h => ⟨i, g, hm.of_takes rfl h, Or.inl h⟩)
        (fun h => ⟨i, g, hm.of_takes hsame h, Or.inl h⟩)
    · exact ((matches_union_iff hsame).mp hm).imp (fun h => ⟨i, g, h, Or.inr hbound⟩)
        (fun h => ⟨i, g, h, Or.inr hbound⟩)
  · rintro (h | h)
    · exact h.mono within_union_left
    · exact h.mono (within_union_right hsame)

/-- A file refers in a line to two changes if it refers there to one of them: a name that is
known because of one is looked for in the calls of that one. -/
theorem refersAt_union_iff :
    (c₁.union c₂).RefersAt index f line ↔ c₁.RefersAt index f line ∨ c₂.RefersAt index f line := by
  constructor
  · rintro ⟨hpos, ⟨i, g, hm, hline⟩ | ⟨call, hcall, hline, name, hknows, hmentions⟩⟩
    · exact ((matches_union_iff hsame).mp hm).imp (fun h => ⟨hpos, Or.inl ⟨i, g, h, hline⟩⟩)
        (fun h => ⟨hpos, Or.inl ⟨i, g, h, hline⟩⟩)
    · exact ((knows_union_iff hsame).mp hknows).imp
        (fun h => ⟨hpos, Or.inr ⟨call, hcall, hline, name, h, hmentions⟩⟩)
        (fun h => ⟨hpos, Or.inr ⟨call, hcall, hline, name, h, hmentions⟩⟩)
  · rintro (h | h)
    · exact h.mono within_union_left
    · exact h.mono (within_union_right hsame)

end Union

end Change

/-! ## What is said about a component -/

namespace AffectedComponent

/-- What two changes say about one component, together: the names and the files of both, and for
each file the lines of both. -/
def union (a b : AffectedComponent) : AffectedComponent :=
  { component := a.component
    matchedSymbols := Ordered.union a.matchedSymbols b.matchedSymbols
    affectedLines := (Ordered.union a.files b.files).map fun path =>
      (path, Ordered.union (a.linesAt path) (b.linesAt path)) }

/-- All that is said about a component is also said elsewhere. -/
structure Within (a b : AffectedComponent) : Prop where
  component : a.component = b.component
  symbols : a.matchedSymbols ⊆ b.matchedSymbols
  files : a.files ⊆ b.files
  lines : ∀ path, a.linesAt path ⊆ b.linesAt path

variable {a b : AffectedComponent}

theorem files_union : (a.union b).files = Ordered.union a.files b.files := by
  rw [files, union, List.map_map]
  exact List.map_id _

theorem linesAt_union {path : String} :
    (a.union b).linesAt path = Ordered.union (a.linesAt path) (b.linesAt path) := by
  rw [linesAt, union, Ordered.find?_map_keys]
  split
  · rfl
  · next hpath =>
    rw [Ordered.mem_union, not_or] at hpath
    rw [linesAt_of_notMem hpath.1, linesAt_of_notMem hpath.2]
    rfl

/-- Where the files ascend, the lines of each make up all that is said about lines. -/
theorem affectedLines_eq (h : a.files.Pairwise (· < ·)) :
    a.affectedLines = a.files.map fun path => (path, a.linesAt path) := by
  rw [files, List.map_map]
  refine (List.map_id _).symm.trans (List.map_congr_left fun e he => ?_)
  rw [Function.comp_apply, linesAt, Ordered.find?_eq_some_of_mem h he]
  rfl

end AffectedComponent

namespace Change

variable {c c' c₁ c₂ : Change} {index : ExportIndex} {files : List IndexedFile} {owner : String}
  {a b : AffectedComponent}

/-- Only one thing can be said about a component. -/
theorem Describes.eq (ha : c.Describes index files owner a) (hb : c.Describes index files owner b) :
    a = b := by
  have hfiles : a.files = b.files := ha.paths.eq hb.paths fun _ => Iff.rfl
  have hlines : a.affectedLines = b.affectedLines := by
    rw [AffectedComponent.affectedLines_eq ha.paths.ascends,
      AffectedComponent.affectedLines_eq hb.paths.ascends, ← hfiles]
    refine List.map_congr_left fun path hpath => ?_
    obtain ⟨f, hf, howner, -, rfl⟩ := (ha.paths.mem_iff path).mp hpath
    rw [(ha.lines f hf howner).eq (hb.lines f hf howner) fun _ => Iff.rfl]
  have hsymbols := ha.symbols.eq hb.symbols fun _ => Iff.rfl
  have hcomponent := ha.component.trans hb.component.symm
  cases a
  cases b
  simp_all only

/-- A larger change says at least as much. -/
theorem Describes.within (ha : c.Describes index files owner a)
    (hb : c'.Describes index files owner b) (hc : c.Within c') : a.Within b where
  component := ha.component.trans hb.component.symm
  symbols name hname := by
    obtain ⟨f, hf, howner, htakes⟩ := (ha.symbols.mem_iff name).mp hname
    exact (hb.symbols.mem_iff name).mpr ⟨f, hf, howner, htakes.mono hc⟩
  files path hpath := by
    obtain ⟨f, hf, howner, haffects, hpath⟩ := (ha.paths.mem_iff path).mp hpath
    exact (hb.paths.mem_iff path).mpr ⟨f, hf, howner, haffects.mono hc, hpath⟩
  lines path line hline := by
    by_cases hpath : path ∈ a.files
    · obtain ⟨f, hf, howner, -, rfl⟩ := (ha.paths.mem_iff path).mp hpath
      rw [(ha.lines f hf howner).mem_iff] at hline
      exact ((hb.lines f hf howner).mem_iff line).mpr (hline.mono hc)
    · rw [AffectedComponent.linesAt_of_notMem hpath] at hline
      cases hline

/-- What two changes say together is what is said about both. -/
theorem Describes.union (hsame : c₂.component = c₁.component)
    (ha : c₁.Describes index files owner a) (hb : c₂.Describes index files owner b) :
    (c₁.union c₂).Describes index files owner (a.union b) := by
  have hboth {p p₁ p₂ : IndexedFile → Prop} (hp : ∀ f, p f ↔ p₁ f ∨ p₂ f) :
      ((∃ f ∈ files, f.component = some owner ∧ p₁ f) ∨
        ∃ f ∈ files, f.component = some owner ∧ p₂ f) ↔
          ∃ f ∈ files, f.component = some owner ∧ p f := by
    simp only [hp, and_or_left, exists_or]
  refine ⟨ha.component, ?_, ?_, fun f hf howner => ?_⟩
  · exact (ha.symbols.union hb.symbols).congr fun name => hboth fun f => takes_union_iff hsame
  · rw [AffectedComponent.files_union]
    exact (ha.paths.union hb.paths).congr fun path => hboth fun f => by
      rw [affects_union_iff hsame, or_and_right]
  · rw [AffectedComponent.linesAt_union]
    exact ((ha.lines f hf howner).union (hb.lines f hf howner)).congr fun line =>
      (refersAt_union_iff hsame).symm

end Change

/-! ## What the analysis says -/

/-- What two analyses say together: the components of both, each with what both say about it. -/
def reachedUnion (xs ys : List AffectedComponent) : List AffectedComponent :=
  (Ordered.union (xs.map (·.component)) (ys.map (·.component))).map fun owner =>
    (entryOf xs owner).union (entryOf ys owner)

/-- A list with every component once is what it says about each. -/
theorem map_entryOf {xs : List AffectedComponent} (h : (xs.map (·.component)).Nodup) :
    (xs.map (·.component)).map (entryOf xs) = xs := by
  rw [List.map_map]
  exact (List.map_congr_left fun a ha => entryOf_of_mem h ha).trans (List.map_id xs)

namespace Change

variable {c c' c₁ c₂ : Change} {edges : List DependencyEdge}

/-- The reached components of two changes are those of both. -/
theorem map_component_reached_union (hsame : c₂.component = c₁.component) (index : ExportIndex) :
    ((c₁.union c₂).reached edges index).map (·.component) =
      Ordered.union ((c₁.reached edges index).map (·.component))
        ((c₂.reached edges index).map (·.component)) := by
  refine ((c₁.union c₂).enumerates_reached edges index).eq
    ((c₁.enumerates_reached edges index).union (c₂.enumerates_reached edges index)) fun owner => ?_
  simp only [affects_union_iff hsame, hsame, ← and_or_left, ← exists_or]
  rfl

theorem reached_union (hsame : c₂.component = c₁.component) (files : List IndexedFile) :
    (c₁.union c₂).reached edges (ExportIndex.build files) =
      reachedUnion (c₁.reached edges (ExportIndex.build files))
        (c₂.reached edges (ExportIndex.build files)) := by
  rw [reachedUnion, ← map_component_reached_union hsame]
  refine (map_entryOf nodup_reachedBy).symm.trans (List.map_congr_left fun owner howner => ?_)
  obtain ⟨a, ha, rfl⟩ := List.mem_map.mp howner
  have hcandidate := mem_candidateSources_of_mem (c := c₁.union c₂) ha
  have h₁ := c₁.describes_entryOf files hcandidate
  have h₂ := c₂.describes_entryOf files (hsame ▸ hcandidate)
  exact ((c₁.union c₂).describes_entryOf files hcandidate).eq (h₁.union hsame h₂)

/-- A component that a change reaches is reached by every larger one, which says at least as much
about it. -/
theorem exists_within_of_mem_reached (hc : c.Within c') (files : List IndexedFile)
    {a : AffectedComponent} (ha : a ∈ c.reached edges (ExportIndex.build files)) :
    ∃ b ∈ c'.reached edges (ExportIndex.build files), a.Within b := by
  have howner : a.component ∈
      (c'.reached edges (ExportIndex.build files)).map (·.component) := by
    obtain ⟨hsource, f, hf, hf', haffects⟩ :=
      ((c.enumerates_reached edges _).mem_iff _).mp (List.mem_map_of_mem ha)
    exact ((c'.enumerates_reached edges _).mem_iff _).mpr
      ⟨hc.component ▸ hsource, f, hf, hf', haffects.mono hc⟩
  obtain ⟨b, hb, hsame⟩ := List.mem_map.mp howner
  refine ⟨b, hb, ?_⟩
  have hdescribes := c.describes_entryOf files (mem_candidateSources_of_mem ha)
  have hdescribes' := c'.describes_entryOf files (mem_candidateSources_of_mem hb)
  rw [reached, entryOf_of_mem nodup_reachedBy ha] at hdescribes
  rw [reached, entryOf_of_mem nodup_reachedBy hb, hsame] at hdescribes'
  exact hdescribes.within hdescribes' hc

end Change

/-- The analysis of two changes of a component taken together says what the two analyses say
together, and the analysis of a larger change says at least as much. -/
theorem affectedComponents_union (files : List IndexedFile) (edges : List DependencyEdge)
    (component : String) (names₁ names₂ : List String) (content₁ content₂ : Bool) :
    let reach (names : List String) (content : Bool) :=
      affectedComponents component names content edges (ExportIndex.build files)
    reach (Ordered.union names₁ names₂) (content₁ || content₂) =
      reachedUnion (reach names₁ content₁) (reach names₂ content₂) ∧
    (names₁ ⊆ names₂ → (content₁ = true → content₂ = true) →
      ∀ a ∈ reach names₁ content₁, ∃ b ∈ reach names₂ content₂, a.Within b) := by
  intro reach
  let c₁ : Change := { component, names := names₁, content := content₁ }
  let c₂ : Change := { component, names := names₂, content := content₂ }
  have hsame : c₂.component = c₁.component := rfl
  refine ⟨Change.reached_union hsame files, fun hnames hcontent a ha => ?_⟩
  have hwithin : c₁.Within c₂ := ⟨rfl, hnames, hcontent⟩
  exact Change.exists_within_of_mem_reached hwithin files ha

/-- A name is seen in one file and the content in the other, both together in both. -/
theorem sample_reached_union :
    let reach (names : List String) (content : Bool) :=
      affectedComponents "core" names content (DependencyGraph.build sampleCalling).edges
        (ExportIndex.build sampleCalling)
    (reach ["total"] false).map (·.affectedLines) =
        [[("ui/cart.ts", [1, 4]), ("ui/list.ts", [2, 3])]] ∧
      (reach [] true).map (·.affectedLines) = [[("ui/list.ts", [2, 3])]] ∧
      reach ["total"] true = reachedUnion (reach [] true) (reach ["total"] false) ∧
      ∀ a ∈ reach [] true, ∃ b ∈ reach ["total"] true, a.Within b := by
  intro reach
  refine ⟨by decide +kernel, by decide +kernel, ?_, ?_⟩
  · exact (affectedComponents_union sampleCalling (DependencyGraph.build sampleCalling).edges
      "core" [] ["total"] true false).1
  · exact (affectedComponents_union sampleCalling (DependencyGraph.build sampleCalling).edges
      "core" [] ["total"] true true).2 (List.nil_subset _) id

end ChangeImpact
