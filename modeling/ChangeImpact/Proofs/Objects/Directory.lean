import ChangeImpact.Objects.Key
import ChangeImpact.Proofs.Objects.Contract
import ChangeImpact.Proofs.Objects.Place

/-!
# Objects in a directory keep the contract

No file of the store stands in the way of another. So what is got under a key is the file at
its place, and the store keeps the contract if keys with one place count as the same. It keeps
it key by key exactly if no two keys can hold an object at one place. No call touches anything
but the place of its key and the directories on the way.
-/

namespace ChangeImpact

namespace ObjectDirectory

variable {d d' : ObjectDirectory} {key : String} {data : Bytes} {parts q : List String}

/-! ## Files and directories -/

/-- The store with the directories on the way to a place. -/
def prepared (d : ObjectDirectory) (parts : List String) : ObjectDirectory :=
  { d with directories :=
      (parents parts).foldl (fun ds p => Ordered.insertOnce p ds) d.directories }

/-- The store with a file at a place. -/
def written (d : ObjectDirectory) (parts : List String) (data : Bytes) : ObjectDirectory :=
  { d with files := d.files.filter (·.1 ≠ parts) ++ [(parts, data)] }

/-- The store without the file at a place. -/
def removed (d : ObjectDirectory) (parts : List String) : ObjectDirectory :=
  { d with files := d.files.filter (·.1 ≠ parts) }

theorem prefix_of_mem_parents (h : q ∈ parents parts) : q <+: parts ∧ q ≠ parts := by
  obtain ⟨n, hn, rfl⟩ := List.mem_map.mp h
  have hlt := List.mem_range.mp (List.mem_of_mem_tail hn)
  refine ⟨List.take_prefix n parts, fun heq => ?_⟩
  have hlength := congrArg List.length heq
  rw [List.length_take] at hlength
  omega

theorem mem_directories_prepared :
    q ∈ (d.prepared parts).directories ↔ q ∈ d.directories ∨ q ∈ parents parts := by
  have hfold (ps ds : List (List String)) :
      q ∈ ps.foldl (fun ds p => Ordered.insertOnce p ds) ds ↔ q ∈ ds ∨ q ∈ ps := by
    induction ps generalizing ds with
    | nil => exact ⟨.inl, fun h => h.resolve_right List.not_mem_nil⟩
    | cons p ps ih =>
      rw [List.foldl_cons, ih, Ordered.mem_insertOnce, List.mem_cons, or_assoc]
  exact hfold _ _

theorem file?_removed : (d.removed parts).file? q = if q = parts then none else d.file? q :=
  Ordered.find?_filter_ne

theorem file?_written :
    (d.written parts data).file? q = if q = parts then some data else d.file? q := by
  have hfile : (d.written parts data).file? q =
      ((d.removed parts).file? q).or (if parts = q then some data else none) := by
    rw [file?, written, List.find?_append, Option.map_or, List.find?_singleton]
    refine congrArg _ ?_
    by_cases hq : parts = q
    · simp [hq]
    · simp [hq]
  rw [hfile, file?_removed]
  by_cases hq : q = parts
  · rw [if_pos hq, if_pos hq, if_pos hq.symm, Option.none_or]
  · rw [if_neg hq, if_neg hq, if_neg (Ne.symm hq), Option.or_none]

/-! ## Calls -/

theorem put_of_refused {e : Failure} (h : pathOf key = .error e) (d : ObjectDirectory)
    (data : Bytes) : d.put key data = (.error e, d) := by
  rw [put, h]

theorem get_of_refused {e : Failure} (h : pathOf key = .error e) (d : ObjectDirectory) :
    d.get key = .error e := by
  rw [get, h]
  rfl

theorem holds_of_refused {e : Failure} (h : pathOf key = .error e) (d : ObjectDirectory) :
    d.holds key = .error e := by
  rw [holds, h]
  rfl

theorem delete_of_refused {e : Failure} (h : pathOf key = .error e) (d : ObjectDirectory) :
    d.delete key = (.error e, d) := by
  rw [delete, h]

/-- What a call to store can do: nothing, no more than make the directories on the way, on
which no file stands, or store the file too. -/
theorem put_cases (d : ObjectDirectory) (key : String) (data : Bytes) :
    (∃ e, d.put key data = (.error e, d)) ∨
      (∃ p, pathOf key = .ok p ∧ d.blocked p.parts = false ∧
        d.put key data = (.error .fileSystem, d.prepared p.parts)) ∨
      ∃ parts, pathOf key = .ok ⟨parts, false⟩ ∧ d.blocked parts = false ∧
        nameable parts = true ∧ parts ∉ d.directories ∧
          d.put key data = (.ok (), (d.prepared parts).written parts data) := by
  cases hpath : pathOf key with
  | error e => exact .inl ⟨e, put_of_refused hpath d data⟩
  | ok p =>
    obtain ⟨parts, trailing⟩ := p
    rw [put, hpath]
    dsimp only
    split
    · exact .inl ⟨_, rfl⟩
    · next hfree =>
      have hblocked := Bool.eq_false_iff.mpr (not_or.mp hfree).2
      split
      · exact .inr (.inl ⟨_, rfl, hblocked, rfl⟩)
      · next hfits =>
        obtain ⟨htrailing, hnameable, hdirectory⟩ : ¬ trailing = true ∧ ¬ (!nameable parts) = true ∧
            ¬ (d.prepared parts).directories.contains parts = true :=
          ⟨fun h => hfits (.inl h), fun h => hfits (.inr (.inl h)), fun h => hfits (.inr (.inr h))⟩
        refine .inr (.inr ⟨parts, ?_, hblocked, by simpa using hnameable, fun h => ?_, rfl⟩)
        · rw [Bool.eq_false_iff.mpr htrailing]
        · exact hdirectory (List.contains_iff_mem.mpr (mem_directories_prepared.mpr (.inl h)))

/-- What a call to delete can do: fail, find no file, or remove the file. -/
theorem delete_cases (d : ObjectDirectory) (key : String) :
    (∃ e, d.delete key = (.error e, d)) ∨
      (∃ p, pathOf key = .ok p ∧ d.file? p.parts = none ∧ d.delete key = (.ok (), d)) ∨
      ∃ parts, pathOf key = .ok ⟨parts, false⟩ ∧ d.delete key = (.ok (), d.removed parts) := by
  cases hpath : pathOf key with
  | error e => exact .inl ⟨e, delete_of_refused hpath d⟩
  | ok p =>
    obtain ⟨parts, trailing⟩ := p
    rw [delete, hpath]
    dsimp only
    split
    · exact .inl ⟨_, rfl⟩
    · cases hfile : d.file? parts with
      | none => exact .inr (.inl ⟨_, rfl, hfile, rfl⟩)
      | some content =>
        cases trailing with
        | true => exact .inl ⟨_, rfl⟩
        | false => exact .inr (.inr ⟨parts, rfl, rfl⟩)

/-! ## Where files stand -/

/-- A file may stand at a place: it is no directory, but all places on the way are, and its
name can be handed to the file system. -/
structure Stands (d : ObjectDirectory) (parts : List String) : Prop where
  notDirectory : parts ∉ d.directories
  way : ∀ p ∈ parents parts, p ∈ d.directories
  nameable : nameable parts = true

/-- Every file stands where a file may stand. -/
def Sound (d : ObjectDirectory) : Prop := ∀ q, (d.file? q).isSome → d.Stands q

theorem file?_eq_none_of_mem_parents (h : d.blocked parts = false) (hq : q ∈ parents parts) :
    d.file? q = none := by
  rw [← Option.not_isSome_iff_eq_none]
  exact fun hfile => Bool.eq_false_iff.mp h (List.any_eq_true.mpr ⟨q, hq, hfile⟩)

theorem Sound.prepared (h : d.Sound) (hblocked : d.blocked parts = false) :
    (d.prepared parts).Sound := fun q hfile =>
  have hq := h q hfile
  { notDirectory := fun hmem => (mem_directories_prepared.mp hmem).elim hq.notDirectory
      fun hparent => by
        have hnone : d.file? q = none := file?_eq_none_of_mem_parents hblocked hparent
        rw [show (d.prepared parts).file? q = d.file? q from rfl, hnone] at hfile
        cases hfile
    way := fun p hp => mem_directories_prepared.mpr (.inl (hq.way p hp))
    nameable := hq.nameable }

theorem Stands.prepared (hdirectory : parts ∉ d.directories)
    (hnameable : ObjectDirectory.nameable parts = true) : (d.prepared parts).Stands parts where
  notDirectory hmem := (mem_directories_prepared.mp hmem).elim hdirectory
    fun hparent => (prefix_of_mem_parents hparent).2 rfl
  way _ hp := mem_directories_prepared.mpr (.inr hp)
  nameable := hnameable

theorem Sound.written (h : d.Sound) (hstands : d.Stands parts) :
    (d.written parts data).Sound := fun q hfile => by
  have hq : d.Stands q := by
    rw [file?_written] at hfile
    split at hfile
    · next hparts => exact hparts ▸ hstands
    · exact h q hfile
  exact ⟨hq.notDirectory, hq.way, hq.nameable⟩

theorem Sound.removed (h : d.Sound) : (d.removed parts).Sound := fun q hfile => by
  have hq : d.Stands q := by
    rw [file?_removed] at hfile
    split at hfile
    · cases hfile
    · exact h q hfile
  exact ⟨hq.notDirectory, hq.way, hq.nameable⟩

theorem Sound.put (h : d.Sound) (key : String) (data : Bytes) : (d.put key data).2.Sound := by
  rcases d.put_cases key data with ⟨e, hput⟩ | ⟨p, -, hblocked, hput⟩ |
    ⟨parts, -, hblocked, hnameable, hdirectory, hput⟩
  · rw [hput]
    exact h
  · rw [hput]
    exact h.prepared hblocked
  · rw [hput]
    exact (h.prepared hblocked).written (.prepared hdirectory hnameable)

theorem Sound.delete (h : d.Sound) (key : String) : (d.delete key).2.Sound := by
  rcases d.delete_cases key with ⟨e, hdelete⟩ | ⟨p, -, -, hdelete⟩ | ⟨parts, -, hdelete⟩
  · rw [hdelete]
    exact h
  · rw [hdelete]
    exact h
  · rw [hdelete]
    exact h.removed

/-! ## The contract -/

/-- The octets at the place of a key, if the key can mean a file. -/
def content (d : ObjectDirectory) (key : String) : Option Bytes :=
  (pathOf key).toOption.bind fun p => if p.trailing then none else d.file? p.parts

theorem content_eq {p : ObjectPath} (h : pathOf key = .ok p) :
    d.content key = if p.trailing then none else d.file? p.parts := by
  rw [content, h]
  rfl

theorem Sound.not_blocked (h : d.Sound) (hstands : d.Stands parts) : d.blocked parts = false := by
  refine Bool.eq_false_iff.mpr fun hblocked => ?_
  obtain ⟨p, hp, hfile⟩ := List.any_eq_true.mp hblocked
  exact (h p hfile).notDirectory (hstands.way p hp)

/-- As no file stands in the way of another, a file is got wherever there is one. -/
theorem Sound.toOption_get (h : d.Sound) (key : String) :
    (d.get key).toOption = d.content key := by
  rw [get]
  cases hpath : pathOf key with
  | error e =>
    rw [content, hpath]
    rfl
  | ok p =>
    obtain ⟨parts, trailing⟩ := p
    rw [content_eq hpath]
    dsimp only [bind, Except.bind]
    cases hfile : d.file? parts with
    | none =>
      rw [ite_self]
      split <;> rfl
    | some data =>
      have hstands := h parts (hfile ▸ rfl)
      have hfree : ¬ ((!nameable parts) = true ∨ d.blocked parts = true ∨
          d.directories.contains parts = true) := by
        rw [hstands.nameable, h.not_blocked hstands, List.contains_iff_mem]
        exact fun h => h.elim nofun fun h => h.elim nofun hstands.notDirectory
      rw [if_neg hfree]
      cases trailing <;> rfl

/-- The store below a directory. -/
def store : ObjectStore ObjectDirectory where
  empty := {}
  put := put
  get := get
  holds := holds
  delete := delete

theorem Sound.agrees (h : d.Sound) (key : String) : store.Agrees d key := by
  have hget := h.toOption_get key
  cases hpath : pathOf key with
  | error e => exact .inr ⟨e, holds_of_refused hpath d, get_of_refused hpath d⟩
  | ok p =>
    obtain ⟨parts, trailing⟩ := p
    refine .inl ?_
    change d.holds key = .ok (d.get key).toOption.isSome
    rw [hget, content_eq hpath, holds, hpath]
    cases trailing <;> rfl

/-- Whether two keys lead to one place. -/
def samePlace (key key' : String) : Bool := pathOf key = pathOf key'

theorem samePlace_iff {key key' : String} :
    samePlace key key' = true ↔ pathOf key = pathOf key' := decide_eq_true_iff

/-- A change of the file at the place of one key shows under the keys with that place. -/
theorem content_of_file? {k : String} {c : Option Bytes} (hpath : pathOf k = .ok ⟨parts, false⟩)
    (hfile : ∀ q, d'.file? q = if q = parts then c else d.file? q) (key : String) :
    d'.content key = if samePlace key k then c else d.content key := by
  by_cases hsame : pathOf key = pathOf k
  · rw [if_pos (samePlace_iff.mpr hsame), content_eq (hsame.trans hpath), hfile, if_pos rfl]
    rfl
  · rw [if_neg fun h => hsame (samePlace_iff.mp h)]
    cases hkey : pathOf key with
    | error e => rw [content, content, hkey]; rfl
    | ok p =>
      obtain ⟨parts', trailing⟩ := p
      rw [content_eq hkey, content_eq hkey]
      cases trailing with
      | true => rfl
      | false =>
        have hne : parts' ≠ parts := fun h => hsame (hkey.trans (h ▸ hpath.symm))
        rw [if_neg Bool.false_ne_true, if_neg Bool.false_ne_true, hfile, if_neg hne]

theorem content_put (d : ObjectDirectory) (k : String) (data : Bytes) (key : String) :
    (d.put k data).2.content key =
      overwrite (samePlace key) (d.content key)
        ((d.put k data).1.toOption.map fun _ => ⟨k, some data⟩) := by
  rcases d.put_cases k data with ⟨e, hput⟩ | ⟨p, -, -, hput⟩ | ⟨parts, hpath, -, -, -, hput⟩
  · rw [hput]
    rfl
  · rw [hput]
    rfl
  · rw [hput]
    exact content_of_file? (d := d) hpath (fun q => file?_written) key

theorem content_delete (d : ObjectDirectory) (k : String) (key : String) :
    (d.delete k).2.content key =
      overwrite (samePlace key) (d.content key)
        ((d.delete k).1.toOption.map fun _ => ⟨k, none⟩) := by
  rcases d.delete_cases k with ⟨e, hdelete⟩ | ⟨p, hpath, hfile, hdelete⟩ | ⟨parts, hpath, hdelete⟩
  · rw [hdelete]
    rfl
  · rw [hdelete]
    change d.content key = if samePlace key k then none else d.content key
    split
    · next hsame =>
      rw [content_eq ((samePlace_iff.mp hsame).trans hpath), hfile, ite_self]
    · rfl
  · rw [hdelete]
    exact content_of_file? hpath (fun q => file?_removed) key

theorem sound_empty : ({} : ObjectDirectory).Sound := fun _ hfile => by cases hfile

/-- The calls keep the contract if keys that lead to one place count as the same. -/
theorem lawful (keys : String → Prop) : store.Lawful keys samePlace Sound where
  empty := sound_empty
  step d call h := by
    cases call with
    | put k data => exact h.put k data
    | delete k => exact h.delete k
    | get k => exact h
    | holds k => exact h
  get_empty key := by
    refine (sound_empty.toOption_get key).trans (Option.bind_eq_none_iff.mpr fun p _ => ?_)
    exact ite_self none
  get_step d call key h _ _ := by
    change ((store.step d call).get key).toOption =
      overwrite (samePlace key) (d.get key).toOption (store.write? d call)
    rw [h.toOption_get key]
    cases call with
    | put k data => exact ((h.put k data).toOption_get key).trans (d.content_put k data key)
    | delete k => exact ((h.delete k).toOption_get key).trans (d.content_delete k key)
    | get k => exact h.toOption_get key
    | holds k => exact h.toOption_get key
  agrees _ key h := h.agrees key

/-! ## Keys with places of their own -/

/-- The key can hold an object at a place. -/
structure CanHold (key : String) (parts : List String) : Prop where
  path : pathOf key = .ok ⟨parts, false⟩
  nameable : nameable parts = true

/-- No two of the keys can hold an object at one place. -/
def Apart (keys : String → Prop) : Prop :=
  ∀ key key' parts, keys key → keys key' → CanHold key parts → CanHold key' parts → key = key'

theorem apart_of_canonical {keys : String → Prop} (h : ∀ key, keys key → Canonical key) :
    Apart keys := fun key key' _ hkey hkey' hcan hcan' =>
  eq_of_pathOf_eq (h key hkey) (h key' hkey') hcan.path hcan'.path

/-- Under a key that can hold nothing there is nothing. -/
theorem Sound.content_eq_none (h : d.Sound) (hcannot : ¬ ∃ parts, CanHold key parts) :
    d.content key = none := by
  cases hpath : pathOf key with
  | error e =>
    rw [content, hpath]
    rfl
  | ok p =>
    obtain ⟨parts, trailing⟩ := p
    rw [content_eq hpath]
    cases trailing with
    | true => rfl
    | false =>
      rw [if_neg Bool.false_ne_true, ← Option.not_isSome_iff_eq_none]
      exact fun hfile => hcannot ⟨parts, hpath, (h parts hfile).nameable⟩

/-- What is stored is held. -/
theorem canHold_of_write? {call : ObjectCall} {w : ObjectWrite}
    (h : store.write? d call = some w) : w.content = none ∨ ∃ parts, CanHold w.key parts := by
  cases call with
  | put k data =>
    obtain ⟨_, hok, rfl⟩ := Option.map_eq_some_iff.mp h
    change (d.put k data).1.toOption = _ at hok
    rcases d.put_cases k data with ⟨e, hput⟩ | ⟨p, -, -, hput⟩ | ⟨parts, hpath, -, hname, -, -⟩
    · rw [hput] at hok
      cases hok
    · rw [hput] at hok
      cases hok
    · exact .inr ⟨parts, hpath, hname⟩
  | delete k =>
    obtain ⟨_, -, rfl⟩ := Option.map_eq_some_iff.mp h
    exact .inl rfl
  | get k => cases h
  | holds k => cases h

/-- Where keys have places of their own, each stands for itself. -/
theorem lawful_of_apart {keys : String → Prop} (hkeys : Apart keys) :
    store.Lawful keys (· == ·) Sound where
  empty := (lawful keys).empty
  step := (lawful keys).step
  get_empty := (lawful keys).get_empty
  get_step d call key h hcall hkey := by
    rw [(lawful keys).get_step d call key h hcall hkey]
    cases hw : store.write? d call with
    | none => rfl
    | some w =>
      rw [← ObjectStore.key_of_write? hw] at hcall
      change (if samePlace key w.key then w.content else (store.get d key).toOption) =
        if key == w.key then w.content else (store.get d key).toOption
      by_cases heq : key = w.key
      · rw [heq, if_pos (samePlace_iff.mpr rfl), if_pos (beq_self_eq_true _)]
      rw [if_neg fun h => heq (beq_iff_eq.mp h)]
      split
      · next hsame =>
        -- two keys that cannot hold anything at their place: there was nothing to remove
        have hpath := samePlace_iff.mp hsame
        have hcannot : ¬ ∃ parts, CanHold key parts := fun ⟨parts, hcan⟩ =>
          heq (hkeys key w.key parts hkey hcall hcan ⟨hpath.symm.trans hcan.path, hcan.nameable⟩)
        have hnone : w.content = none := (canHold_of_write? hw).resolve_right fun ⟨parts, hcan⟩ =>
          hcannot ⟨parts, hpath.trans hcan.path, hcan.nameable⟩
        exact hnone.trans ((h.toOption_get key).trans (h.content_eq_none hcannot)).symm
      · rfl
  agrees := (lawful keys).agrees

/-! ## Confinement -/

/-- What stands at a place: the content of a file, and whether there is a directory. -/
def standing (d : ObjectDirectory) (q : List String) : Option Bytes × Bool :=
  (d.file? q, d.directories.contains q)

/-- The calls for a key touch nothing but its place, which the way of the key reaches without
stepping out of the root, and the directories on the way. Those for a refused key name it and
touch nothing. -/
structure Confined (key : String) : Prop where
  refused : ∀ e, pathOf key = .error e →
    e = .storage ("invalid object key " ++ Text.quoted key) ∧
      ∀ (d : ObjectDirectory) (data : Bytes), d.put key data = (.error e, d) ∧
        d.get key = .error e ∧ d.holds key = .error e ∧ d.delete key = (.error e, d)
  reached : ∀ p, pathOf key = .ok p → ∀ root : List String, p.parts ≠ [] ∧
    walked (startOf root key) (Path.segments key) = root ++ p.parts
  inside : ∀ p, pathOf key = .ok p → ∀ root components : List String,
    components <+: Path.segments key → root <+: walked (startOf root key) components
  writes : ∀ p, pathOf key = .ok p → ∀ (d : ObjectDirectory) (data : Bytes) (q : List String),
    ¬ q <+: p.parts → (d.put key data).2.standing q = d.standing q ∧
      (d.delete key).2.standing q = d.standing q
  reads : ∀ p, pathOf key = .ok p → ∀ d d' : ObjectDirectory,
    (∀ q, q <+: p.parts → d.standing q = d'.standing q) →
      d.get key = d'.get key ∧ d.holds key = d'.holds key ∧
        (∀ data, (d.put key data).1 = (d'.put key data).1) ∧
          (d.delete key).1 = (d'.delete key).1

theorem standing_prepared (h : ¬ q <+: parts) : (d.prepared parts).standing q = d.standing q := by
  refine Prod.ext rfl (Bool.eq_iff_iff.mpr ?_)
  change (d.prepared parts).directories.contains q = true ↔ d.directories.contains q = true
  rw [List.contains_iff_mem, List.contains_iff_mem, mem_directories_prepared]
  exact ⟨fun hq => hq.resolve_right fun hparent => h (prefix_of_mem_parents hparent).1, .inl⟩

theorem standing_written (h : q ≠ parts) : (d.written parts data).standing q = d.standing q :=
  Prod.ext (file?_written.trans (if_neg h)) rfl

theorem standing_removed (h : q ≠ parts) : (d.removed parts).standing q = d.standing q :=
  Prod.ext (file?_removed.trans (if_neg h)) rfl

theorem standing_put {p : ObjectPath} (hpath : pathOf key = .ok p) (h : ¬ q <+: p.parts) :
    (d.put key data).2.standing q = d.standing q := by
  rcases d.put_cases key data with ⟨e, hput⟩ | ⟨p', hpath', -, hput⟩ |
    ⟨parts, hpath', -, -, -, hput⟩
  · rw [hput]
  · cases hpath.symm.trans hpath'
    rw [hput]
    exact standing_prepared h
  · cases hpath.symm.trans hpath'
    have hne : q ≠ parts := fun hq => h (hq ▸ List.prefix_refl _)
    rw [hput]
    exact (standing_written hne).trans (standing_prepared h)

theorem standing_delete {p : ObjectPath} (hpath : pathOf key = .ok p) (h : ¬ q <+: p.parts) :
    (d.delete key).2.standing q = d.standing q := by
  rcases d.delete_cases key with ⟨e, hdelete⟩ | ⟨p', -, -, hdelete⟩ | ⟨parts, hpath', hdelete⟩
  · rw [hdelete]
  · rw [hdelete]
  · cases hpath.symm.trans hpath'
    have hne : q ≠ parts := fun hq => h (hq ▸ List.prefix_refl _)
    rw [hdelete]
    exact standing_removed hne

theorem put_fst {trailing : Bool} (hpath : pathOf key = .ok ⟨parts, trailing⟩)
    (d : ObjectDirectory) (data : Bytes) :
    (d.put key data).1 =
      if (!nameable parts.dropLast ∨ d.blocked parts) ∨ trailing ∨ !nameable parts ∨
          d.directories.contains parts then .error .fileSystem
      else .ok () := by
  have hdirectory : (d.prepared parts).directories.contains parts =
      d.directories.contains parts := by
    rw [Bool.eq_iff_iff, List.contains_iff_mem, List.contains_iff_mem, mem_directories_prepared]
    exact ⟨fun h => h.resolve_right fun hparent => (prefix_of_mem_parents hparent).2 rfl, .inl⟩
  rw [put, hpath, ← hdirectory]
  dsimp only
  split
  · next h => rw [if_pos (.inl h)]
  · next h =>
    split
    · next hmisfit => exact (if_pos (.inr hmisfit)).symm
    · next hfits => exact (if_neg fun hor => hor.elim h hfits).symm

theorem delete_fst {trailing : Bool} (hpath : pathOf key = .ok ⟨parts, trailing⟩)
    (d : ObjectDirectory) :
    (d.delete key).1 =
      if !nameable parts ∨ d.blocked parts ∨ d.directories.contains parts then .error .fileSystem
      else if (d.file? parts).isSome && trailing then .error .fileSystem
      else .ok () := by
  rw [delete, hpath]
  dsimp only
  split
  · rfl
  · cases d.file? parts with
    | none => rfl
    | some content => cases trailing <;> rfl

/-- The answers to calls for a key depend on what stands on the way to its place only. -/
theorem answers_congr {p : ObjectPath} (hpath : pathOf key = .ok p)
    (hsame : ∀ q, q <+: p.parts → d.standing q = d'.standing q) :
    d.get key = d'.get key ∧ d.holds key = d'.holds key ∧
      (∀ data, (d.put key data).1 = (d'.put key data).1) ∧
        (d.delete key).1 = (d'.delete key).1 := by
  obtain ⟨parts, trailing⟩ := p
  have hfile : d.file? parts = d'.file? parts :=
    congrArg Prod.fst (hsame parts (List.prefix_refl _))
  have hdirectory : d.directories.contains parts = d'.directories.contains parts :=
    congrArg Prod.snd (hsame parts (List.prefix_refl _))
  have hblocked : d.blocked parts = d'.blocked parts := by
    have hway : (parents parts).map d.file? = (parents parts).map d'.file? :=
      List.map_congr_left fun q hq => congrArg Prod.fst (hsame q (prefix_of_mem_parents hq).1)
    have hany := congrArg (List.any · Option.isSome) hway
    rwa [List.any_map, List.any_map] at hany
  refine ⟨?_, ?_, fun data => ?_, ?_⟩
  · rw [get, get, hpath]
    dsimp only [bind, Except.bind]
    rw [hblocked, hdirectory, hfile]
  · rw [holds, holds, hpath]
    dsimp only [bind, Except.bind]
    rw [hfile]
  · rw [put_fst hpath, put_fst hpath, hblocked, hdirectory]
  · rw [delete_fst hpath, delete_fst hpath, hblocked, hdirectory, hfile]

/-- A key can hold an object where neither a file is in the way nor a directory stands. -/
theorem CanHold.put_ok (h : CanHold key parts) (hblocked : d.blocked parts = false)
    (hdirectory : parts ∉ d.directories) (data : Bytes) : (d.put key data).1 = .ok () := by
  have hnameable : ObjectDirectory.nameable parts.dropLast = true :=
    List.all_eq_true.mpr fun name hname =>
      List.all_eq_true.mp h.nameable name (List.mem_of_mem_dropLast hname)
  rw [put_fst h.path, hnameable, h.nameable, hblocked]
  exact if_neg (by simpa using hdirectory)

theorem write?_put (h : (d.put key data).1 = .ok ()) :
    store.write? d (.put key data) = some ⟨key, some data⟩ :=
  congrArg (fun r => r.toOption.map fun _ => ObjectWrite.mk key (some data)) h

/-- A second key for a place replaces what is held under the first. -/
theorem apart_of_keepsContract {keys : String → Prop} (h : store.KeepsContract keys (· == ·)) :
    Apart keys := by
  intro key key' parts hkey hkey' hcan hcan'
  by_contra hne
  obtain ⟨first, hfirst⟩ : ∃ first, ({} : ObjectDirectory).put key [] = (.ok (), first) :=
    ⟨_, Prod.ext (hcan.put_ok (by simp [blocked, file?]) List.not_mem_nil []) rfl⟩
  have hsound : first.Sound := by
    have hput := sound_empty.put key []
    rwa [hfirst] at hput
  have hfile : first.file? parts = some [] := by
    have hput := content_put {} key [] key
    rw [hfirst, content_eq hcan.path] at hput
    exact hput.trans (if_pos (samePlace_iff.mpr rfl))
  have hstands := hsound parts (hfile ▸ rfl)
  have hsecond : (first.put key' [0]).1 = .ok () :=
    hcan'.put_ok (hsound.not_blocked hstands) hstands.notDirectory [0]
  have hwrites : store.writes [.put key [], .put key' [0]] =
      [⟨key, some []⟩, ⟨key', some [0]⟩] := by
    have hafter : store.step {} (.put key []) = first := congrArg Prod.snd hfirst
    rw [ObjectStore.writes, ObjectStore.writesFrom, ObjectStore.writesFrom, ObjectStore.writesFrom,
      show store.empty = {} from rfl, write?_put (congrArg Prod.fst hfirst), hafter,
      write?_put hsecond]
    rfl
  have hcalls : ∀ c ∈ [ObjectCall.put key [], .put key' [0]], keys c.key := by
    simp [ObjectCall.key, hkey, hkey']
  have hown := h.stored _ hcalls key hkey
  rw [(lawful keys).keepsContract.stored _ hcalls key hkey, hwrites] at hown
  have hplace : samePlace key key' = true := samePlace_iff.mpr (hcan.path.trans hcan'.path.symm)
  simp [lastWritten, hplace, hne] at hown

theorem keepsContract_iff_apart {keys : String → Prop} :
    store.KeepsContract keys (· == ·) ↔ Apart keys :=
  ⟨apart_of_keepsContract, fun h => (lawful_of_apart h).keepsContract⟩

theorem confined (key : String) : Confined key where
  refused _ h := ⟨eq_storage_of_pathOf h, fun d data =>
    ⟨put_of_refused h d data, get_of_refused h d, holds_of_refused h d, delete_of_refused h d⟩⟩
  reached _ h root := ⟨(accepted_of_pathOf h).ne_nil, (accepted_of_pathOf h).walked_eq root⟩
  inside _ h root _ := (accepted_of_pathOf h).walked_inside root
  writes _ h _ _ _ hq := ⟨standing_put h hq, standing_delete h hq⟩
  reads _ h _ _ hsame := answers_congr h hsame

end ObjectDirectory

/-- Both stores keep the contract over all runs with certain keys. In memory every key stands
for itself, and nothing else than a missing object is reported. In a directory keys that lead to
one place share an object; so every key stands for itself there exactly if no two of the keys
can hold an object at one place, as is the case with canonical keys. And every key is confined
to its place below the root. -/
theorem object_stores_keep_contract (keys : String → Prop) :
    (Objects.store.KeepsContract keys (· == ·) ∧
      ∀ calls key e, Objects.store.get (Objects.store.run calls) key = .error e →
        e = .notFound ("object " ++ key)) ∧
      ObjectDirectory.store.KeepsContract keys ObjectDirectory.samePlace ∧
        (ObjectDirectory.store.KeepsContract keys (· == ·) ↔ ObjectDirectory.Apart keys) ∧
          ((∀ key, keys key → ObjectDirectory.Canonical key) → ObjectDirectory.Apart keys) ∧
            ∀ key, ObjectDirectory.Confined key :=
  ⟨⟨(Objects.lawful keys).keepsContract, fun _ _ _ h => Objects.eq_notFound_of_get h⟩,
    (ObjectDirectory.lawful keys).keepsContract, ObjectDirectory.keepsContract_iff_apart,
    ObjectDirectory.apart_of_canonical, ObjectDirectory.confined⟩

/-- The contents of two project files with different paths that lead to one place. -/
def sampleAliases : List ObjectCall :=
  [.put (fileKey "p1" "src/app.ts") (Utf8.encode "one"),
    .put (fileKey "p1" "src//app.ts") (Utf8.encode "two")]

/-- Both files are stored, and the content of the second is got under the key of the first: in a
directory keys do not all stand for themselves. -/
theorem sample_aliases_share :
    lastWritten (fileKey "p1" "src/app.ts" == ·) (ObjectDirectory.store.writes sampleAliases) =
        some (Utf8.encode "one") ∧
      ObjectDirectory.store.get (ObjectDirectory.store.run sampleAliases)
          (fileKey "p1" "src/app.ts") = .ok (Utf8.encode "two") ∧
        ¬ ObjectDirectory.store.KeepsContract (fun _ => True) (· == ·) := by
  have hwritten : lastWritten (fileKey "p1" "src/app.ts" == ·)
      (ObjectDirectory.store.writes sampleAliases) = some (Utf8.encode "one") := by
    decide +kernel
  have hgot : ObjectDirectory.store.get (ObjectDirectory.store.run sampleAliases)
      (fileKey "p1" "src/app.ts") = .ok (Utf8.encode "two") := by
    decide +kernel
  refine ⟨hwritten, hgot, fun h => ?_⟩
  have hstored := h.stored sampleAliases (fun _ _ => trivial) (fileKey "p1" "src/app.ts") trivial
  rw [hwritten, hgot] at hstored
  exact absurd hstored (by decide)

end ChangeImpact
