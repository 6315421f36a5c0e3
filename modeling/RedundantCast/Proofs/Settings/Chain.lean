import Mathlib
import RedundantCast.Proofs.Settings.Format
import RedundantCast.Settings.Load

/-!
# The chain of settings files

A settings file leads to the one it is based on, and that to a third.  Loading
follows this chain to its first stop: a file without a base, a file that cannot be
read, or a file that was there before.
-/

namespace RedundantCast

open Json

namespace Settings

/-- The settings in the file at a path alone. -/
def readAt (decode : Decoder Config) (fs : FileSystem) (path : Path) :
    Except SettingsError Config :=
  match fs.read path with
  | none => .error (.unreadable path)
  | some text => (Config.parseBy decode text).mapError (.refused path)

/-- The files on the way from one path to another, each of which is based on the
next one. -/
inductive Leads (decode : Decoder Config) (fs : FileSystem) :
    Path → List (Path × Config) → Path → Prop where
  | nil {path : Path} : Leads decode fs path [] path
  | cons {path directory last : Path} {config : Config} {base : String}
      {links : List (Path × Config)} :
      readAt decode fs path = .ok config → config.base = some base →
      path.parent? = some directory → Leads decode fs (directory.join base) links last →
      Leads decode fs path ((path, config) :: links) last

/-- The canonical paths of some files, by which they are compared. -/
def visited (fs : FileSystem) (links : List (Path × Config)) : List (List String) :=
  links.map fun link => (fs.canonicalPath link.1).components

/-- A reason why a chain goes no further. -/
inductive Stops (decode : Decoder Config) (fs : FileSystem) (seen : List (List String))
    (last : Path) : Prop where
  | cycle : (fs.canonicalPath last).components ∈ seen → Stops decode fs seen last
  | error {e : SettingsError} : readAt decode fs last = .error e → Stops decode fs seen last
  | noBase {config : Config} : readAt decode fs last = .ok config → config.base = none →
      Stops decode fs seen last

variable {decode : Decoder Config} {fs : FileSystem} {seen : List (List String)}
  {path last : Path} {config : Config} {links : List (Path × Config)}

/-! ## Steps -/

/-- One step along the chain. -/
theorem loadAfter_eq (decode : Decoder Config) (fs : FileSystem) (seen : List (List String))
    (path : Path) :
    loadAfter decode fs seen path =
      if (fs.canonicalPath path).components ∈ seen then .error (.cycle (fs.canonicalPath path))
      else
        match readAt decode fs path with
        | .error e => .error e
        | .ok config =>
          match config.base with
          | none => .ok config
          | some base =>
            match path.parent? with
            | none => .error .noDirectory
            | some directory =>
              (loadAfter decode fs ((fs.canonicalPath path).components :: seen)
                (directory.join base)).map config.basedOn := by
  rw [loadAfter]
  split
  · rfl
  · split
    · next hread => rw [readAt, hread]
    · next text hread =>
      have hat : readAt decode fs path = (Config.parseBy decode text).mapError (.refused path) := by
        rw [readAt, hread]
      rw [hat]
      cases Config.parseBy decode text with
      | error fault => rfl
      | ok config =>
          obtain ⟨base, inspection⟩ := config
          cases base with
          | none => rfl
          | some base => cases path.parent? <;> rfl

theorem exists_read_of_readAt (h : readAt decode fs path = .ok config) :
    ∃ text, fs.read path = some text := by
  cases hread : fs.read path with
  | none => simp [readAt, hread] at h
  | some text => exact ⟨text, rfl⟩

/-! ## Runs -/

/-- Loading a chain is loading its last path, after the files on the way to it. -/
theorem loadAfter_leads (h : Leads decode fs path links last)
    (hfresh : (seen ++ visited fs links).Nodup) :
    loadAfter decode fs seen path =
      links.foldr (fun link result => result.map link.2.basedOn)
        (loadAfter decode fs ((visited fs links).reverse ++ seen) last) := by
  induction h generalizing seen with
  | nil => rfl
  | @cons path directory last config base links hconfig hbase hparent _ ih =>
      have hvisited : visited fs ((path, config) :: links) =
          (fs.canonicalPath path).components :: visited fs links := rfl
      rw [hvisited] at hfresh ⊢
      have hnew : (fs.canonicalPath path).components ∉ seen :=
        fun hmem => List.disjoint_of_nodup_append hfresh hmem List.mem_cons_self
      have hrest : ((fs.canonicalPath path).components :: seen ++ visited fs links).Nodup :=
        List.nodup_middle.1 hfresh
      rw [loadAfter_eq, if_neg hnew, hconfig]
      simp only [hbase, hparent, ih hrest, List.foldr_cons, List.reverse_cons, List.append_assoc,
        List.singleton_append]

/-- A chain stops, for there are finitely many files. -/
theorem exists_leads_stops (hfresh : seen.Nodup) (path : Path) :
    ∃ links last, Leads decode fs path links last ∧ (seen ++ visited fs links).Nodup ∧
      Stops decode fs (seen ++ visited fs links) last := by
  induction hlength : (unseen fs seen).length using Nat.strongRecOn generalizing seen path with
  | ind n ih =>
      subst hlength
      have hhere : Stops decode fs seen path → ∃ links last, Leads decode fs path links last ∧
          (seen ++ visited fs links).Nodup ∧ Stops decode fs (seen ++ visited fs links) last := by
        intro hstops
        have hnone : seen ++ visited fs [] = seen := List.append_nil _
        exact ⟨[], path, .nil, hnone.symm ▸ hfresh, hnone.symm ▸ hstops⟩
      by_cases hnew : (fs.canonicalPath path).components ∈ seen
      · exact hhere (.cycle hnew)
      · cases hconfig : readAt decode fs path with
        | error e => exact hhere (.error hconfig)
        | ok config =>
            cases hbase : config.base with
            | none => exact hhere (.noBase hconfig hbase)
            | some base =>
                obtain ⟨text, hread⟩ := exists_read_of_readAt hconfig
                obtain ⟨directory, hparent⟩ := fs.parent?_of_read hread
                obtain ⟨links, last, hleads, hnodup, hstops⟩ := ih _
                  (length_unseen_cons hread hnew) (List.nodup_cons.2 ⟨hnew, hfresh⟩)
                  (directory.join base) rfl
                refine ⟨(path, config) :: links, last, .cons hconfig hbase hparent hleads,
                  List.nodup_middle.2 hnodup, ?_⟩
                have hmem : ∀ names, names ∈ seen ++ visited fs ((path, config) :: links) ↔
                    names ∈ (fs.canonicalPath path).components :: seen ++ visited fs links := by
                  simp [visited, or_left_comm]
                cases hstops with
                | cycle hcycle => exact .cycle ((hmem _).2 hcycle)
                | error hlast => exact .error hlast
                | noBase hlast hlastBase => exact .noBase hlast hlastBase

/-! ## Merging -/

/-- What the first settings that set an option set it to. -/
def firstSet {α : Type} (get : Inspection → Option α) (configs : List Config) : Option α :=
  configs.findSome? fun config => config.inspection.bind get

/-- Settings that come of a chain of files, the one nearest to the start first. -/
structure Merges (configs : List Config) (merged : Config) : Prop where
  base : merged.base = none
  inspection : merged.inspection = none ↔ ∀ config ∈ configs, config.inspection = none
  category : merged.inspection.bind (·.category) = firstSet (·.category) configs
  trustPropertyDocs :
    merged.inspection.bind (·.trustPropertyDocs) = firstSet (·.trustPropertyDocs) configs
  skipDocOnlyReturns :
    merged.inspection.bind (·.skipDocOnlyReturns) = firstSet (·.skipDocOnlyReturns) configs
  maxInferenceDepth :
    merged.inspection.bind (·.maxInferenceDepth) = firstSet (·.maxInferenceDepth) configs

/-- The options that a chain of settings amounts to. -/
def firstOptions (configs : List Config) : Except OptionsError Options :=
  if firstSet (·.maxInferenceDepth) configs = some 0 then .error .zeroDepth
  else
    .ok
      { category := (firstSet (·.category) configs).getD Options.default.category
        trustPropertyDocs :=
          (firstSet (·.trustPropertyDocs) configs).getD Options.default.trustPropertyDocs
        skipDocOnlyReturns :=
          (firstSet (·.skipDocOnlyReturns) configs).getD Options.default.skipDocOnlyReturns
        maxInferenceDepth :=
          (firstSet (·.maxInferenceDepth) configs).getD Options.default.maxInferenceDepth }

variable {configs : List Config} {merged : Config}

theorem firstSet_singleton {α : Type} (get : Inspection → Option α) (config : Config) :
    config.inspection.bind get = firstSet get [config] := by
  rw [firstSet, List.findSome?_singleton]

theorem bind_basedOn {α : Type} {get : Inspection → Option α}
    (hget : ∀ i b : Inspection, get (i.orElse b) = (get i <|> get b))
    (h : merged.inspection.bind get = firstSet get configs) (config : Config) :
    (config.basedOn merged).inspection.bind get = firstSet get (config :: configs) := by
  have hcons : firstSet get (config :: configs) =
      (config.inspection.bind get <|> firstSet get configs) := by
    simp only [firstSet, List.findSome?_cons]
    cases config.inspection.bind get <;> rfl
  rw [hcons, ← h, Config.basedOn]
  cases config.inspection with
  | none => cases merged.inspection <;> rfl
  | some i =>
      cases merged.inspection with
      | none => cases hi : get i <;> simp [hi]
      | some b => exact hget i b

theorem merges_singleton {config : Config} (h : config.base = none) : Merges [config] config where
  base := h
  inspection := by simp
  category := firstSet_singleton _ config
  trustPropertyDocs := firstSet_singleton _ config
  skipDocOnlyReturns := firstSet_singleton _ config
  maxInferenceDepth := firstSet_singleton _ config

theorem Merges.cons (h : Merges configs merged) (config : Config) :
    Merges (config :: configs) (config.basedOn merged) where
  base := rfl
  inspection := by
    rw [List.forall_mem_cons, ← h.inspection, Config.basedOn]
    cases config.inspection <;> cases merged.inspection <;> simp
  category := bind_basedOn (fun _ _ => rfl) h.category config
  trustPropertyDocs := bind_basedOn (fun _ _ => rfl) h.trustPropertyDocs config
  skipDocOnlyReturns := bind_basedOn (fun _ _ => rfl) h.skipDocOnlyReturns config
  maxInferenceDepth := bind_basedOn (fun _ _ => rfl) h.maxInferenceDepth config

theorem merges_chain {config : Config} (h : config.base = none) (links : List (Path × Config)) :
    Merges (links.map Prod.snd ++ [config])
      (links.foldr (fun link merged => link.2.basedOn merged) config) := by
  induction links with
  | nil => exact merges_singleton h
  | cons link links ih => exact ih.cons link.2

theorem Merges.options_eq (h : Merges configs merged) : merged.options = firstOptions configs := by
  have hget : ∀ {α : Type} (get : Inspection → Option α), get .empty = none →
      get (merged.inspection.getD .empty) = merged.inspection.bind get := by
    intro α get hempty
    cases merged.inspection with
    | none => exact hempty
    | some i => rfl
  simp only [Config.options, firstOptions, hget (·.category) rfl, hget (·.trustPropertyDocs) rfl,
    hget (·.skipDocOnlyReturns) rfl, hget (·.maxInferenceDepth) rfl, h.category,
    h.trustPropertyDocs, h.skipDocOnlyReturns, h.maxInferenceDepth]

/-! ## Whole chains -/

theorem foldr_map_error (links : List (Path × Config)) (e : SettingsError) :
    links.foldr (fun link result => result.map link.2.basedOn) (Except.error e) = .error e := by
  induction links with
  | nil => rfl
  | cons link links ih => rw [List.foldr_cons, ih]; rfl

theorem foldr_map_ok (links : List (Path × Config)) (config : Config) :
    links.foldr (fun link result => result.map link.2.basedOn)
        (Except.ok config : Except SettingsError Config) =
      .ok (links.foldr (fun link merged => link.2.basedOn merged) config) := by
  induction links with
  | nil => rfl
  | cons link links ih => rw [List.foldr_cons, ih]; rfl

/-- Every chain stops, and how loading ends follows from where it stops for the
first time: at a file that was there before, at one that cannot be read, or at one
without a base.  Then each option is that of the first file that sets it. -/
theorem load_chain (decode : Decoder Config) (fs : FileSystem) (start : Path) :
    (∃ links last, Leads decode fs start links last ∧ (visited fs links).Nodup ∧
        Stops decode fs (visited fs links) last) ∧
      ∀ links last, Leads decode fs start links last → (visited fs links).Nodup →
        ((fs.canonicalPath last).components ∈ visited fs links →
          load decode fs start = .error (.cycle (fs.canonicalPath last)) ∧
            loadOptions decode fs start = .error (.cycle (fs.canonicalPath last))) ∧
        ((fs.canonicalPath last).components ∉ visited fs links →
          (∀ e, readAt decode fs last = .error e →
            load decode fs start = .error e ∧ loadOptions decode fs start = .error e) ∧
          ∀ config, readAt decode fs last = .ok config → config.base = none →
            (∃ merged, load decode fs start = .ok merged ∧
              Merges (links.map Prod.snd ++ [config]) merged) ∧
            loadOptions decode fs start =
              (firstOptions (links.map Prod.snd ++ [config])).mapError (.invalid start)) := by
  refine ⟨?_, fun links last hleads hnodup => ?_⟩
  · exact exists_leads_stops List.nodup_nil start
  · have hload : load decode fs start = _ := loadAfter_leads hleads hnodup
    have hvisited : (fs.canonicalPath last).components ∈ (visited fs links).reverse ++ [] ↔
        (fs.canonicalPath last).components ∈ visited fs links := by simp
    rw [loadAfter_eq] at hload
    refine ⟨fun hcycle => ?_, fun hnew => ⟨fun e he => ?_, fun config hconfig hbase => ?_⟩⟩
    · rw [if_pos (hvisited.2 hcycle), foldr_map_error] at hload
      exact ⟨hload, by rw [loadOptions, hload]⟩
    · rw [if_neg (mt hvisited.1 hnew), he] at hload
      simp only [foldr_map_error] at hload
      exact ⟨hload, by rw [loadOptions, hload]⟩
    · rw [if_neg (mt hvisited.1 hnew), hconfig] at hload
      simp only [hbase, foldr_map_ok] at hload
      have hmerges := merges_chain hbase links
      refine ⟨⟨_, hload, hmerges⟩, ?_⟩
      rw [loadOptions, hload, ← hmerges.options_eq]

/-- The settings of a file that turns an option off, and where it is based. -/
def turnedOff : Config :=
  ⟨some "../base.json", some { Inspection.empty with trustPropertyDocs := some false }⟩

/-- The settings of a file that sets another option. -/
def sevenLevels : Config :=
  ⟨none, some { Inspection.empty with maxInferenceDepth := some 7 }⟩

theorem parse_turnedOff :
    Config.parse
        "\x7b\"extends\": \"../base.json\", \"inspection\": \x7b\"trustPropertyDocHints\": false\x7d\x7d" =
      .ok turnedOff := by
  rw [Config.parse_eq_parseTokens]
  cbv

theorem parse_sevenLevels :
    Config.parse "\x7b\"inspection\": \x7b\"maxInferenceDepth\": 7\x7d\x7d" = .ok sevenLevels := by
  rw [Config.parse_eq_parseTokens]
  cbv

/-- A file in the working directory, based on a second one in the directory above. -/
def twoFiles : Disk where
  files :=
    [⟨["app", "phpcast.json"], some
        "\x7b\"extends\": \"../base.json\", \"inspection\": \x7b\"trustPropertyDocHints\": false\x7d\x7d"⟩,
      ⟨["base.json"], some "\x7b\"inspection\": \x7b\"maxInferenceDepth\": 7\x7d\x7d"⟩]
  working := ["app"]

/-- The first file is found by its name alone, and both set an option. -/
theorem load_chain_twoFiles :
    (∃ merged, load Config.decode twoFiles.fileSystem ⟨"phpcast.json"⟩ = .ok merged ∧
        Merges [turnedOff, sevenLevels] merged) ∧
      loadOptions Config.decode twoFiles.fileSystem ⟨"phpcast.json"⟩ =
        .ok { Options.default with trustPropertyDocs := false, maxInferenceDepth := 7 } := by
  have hread : readAt Config.decode twoFiles.fileSystem ⟨"phpcast.json"⟩ = .ok turnedOff :=
    congrArg (Except.mapError _) parse_turnedOff
  have hreadBase : readAt Config.decode twoFiles.fileSystem ⟨"../base.json"⟩ = .ok sevenLevels :=
    congrArg (Except.mapError _) parse_sevenLevels
  have hleads : Leads Config.decode twoFiles.fileSystem ⟨"phpcast.json"⟩
      [(⟨"phpcast.json"⟩, turnedOff)] ⟨"../base.json"⟩ := .cons hread rfl rfl .nil
  obtain ⟨-, hstop⟩ := (load_chain Config.decode twoFiles.fileSystem ⟨"phpcast.json"⟩).2 _ _
    hleads (by decide)
  exact (hstop (by decide)).2 _ hreadBase rfl

/-- A file based on its own path with a slash behind it. -/
def slashBehind : Disk where
  files := [⟨["app", "a.json"], some "\x7b\"extends\": \"a.json/\"\x7d"⟩]
  working := ["app"]

/-- The path with the slash leads to no file, and yet it closes a cycle if the file is
loaded by its canonical path. Loaded by a relative path it does not. -/
theorem load_slashBehind :
    let fs := slashBehind.fileSystem
    Leads Config.decode fs ⟨"/app/a.json"⟩ [(⟨"/app/a.json"⟩, ⟨some "a.json/", none⟩)]
        ⟨"/app/a.json/"⟩ ∧
      fs.canonicalize ⟨"/app/a.json/"⟩ = none ∧
      readAt Config.decode fs ⟨"/app/a.json/"⟩ = .error (.unreadable ⟨"/app/a.json/"⟩) ∧
      load Config.decode fs ⟨"/app/a.json"⟩ = .error (.cycle ⟨"/app/a.json/"⟩) ∧
      load Config.decode fs ⟨"a.json"⟩ = .error (.unreadable ⟨"a.json/"⟩) := by
  intro fs
  have hparse : Config.parse "\x7b\"extends\": \"a.json/\"\x7d" = .ok ⟨some "a.json/", none⟩ := by
    rw [Config.parse_eq_parseTokens]
    cbv
  have hread : readAt Config.decode fs ⟨"/app/a.json"⟩ = .ok ⟨some "a.json/", none⟩ :=
    congrArg (Except.mapError _) hparse
  have hread' : readAt Config.decode fs ⟨"a.json"⟩ = .ok ⟨some "a.json/", none⟩ :=
    congrArg (Except.mapError _) hparse
  have hleads : Leads Config.decode fs ⟨"/app/a.json"⟩
      [(⟨"/app/a.json"⟩, ⟨some "a.json/", none⟩)] ⟨"/app/a.json/"⟩ := .cons hread rfl rfl .nil
  have hleads' : Leads Config.decode fs ⟨"a.json"⟩ [(⟨"a.json"⟩, ⟨some "a.json/", none⟩)]
      ⟨"a.json/"⟩ := .cons hread' rfl rfl .nil
  refine ⟨hleads, rfl, rfl, ?_, ?_⟩
  · rw [load, loadAfter_leads hleads (by decide), loadAfter_eq, if_pos (by decide)]
    rfl
  · rw [load, loadAfter_leads hleads' (by decide), loadAfter_eq, if_neg (by decide)]
    rfl

end Settings

end RedundantCast
