import Unpack.Command.Extraction
import Unpack.Command.Scene
import Unpack.Proofs.Text.Path

namespace Unpack.Command

open Text.Path (Below Within Clean)
open Zip (Archive Entry)

section Ensures

variable {m : Type → Type} [Monad m] [LawfulMonad m] {α β : Type} {p : α → Prop} {q : β → Prop}

-- Whatever a step answers has a property, in any monad.
def Ensures (p : α → Prop) (step : Action m α) : Prop :=
  ∃ sure : Action m {a // p a}, Subtype.val <$> sure = step

theorem Ensures.congr {step : Action m α} {f g : α → Action m β} (h : Ensures p step)
    (hsame : ∀ a, p a → f a = g a) : step >>= f = step >>= g := by
  obtain ⟨sure, rfl⟩ := h
  rw [bind_map_left, bind_map_left]
  exact bind_congr fun a => hsame a.1 a.2

theorem Ensures.bind {step : Action m α} {f : α → Action m β} (h : Ensures p step)
    (hf : ∀ a, p a → Ensures q (f a)) : Ensures q (step >>= f) := by
  obtain ⟨sure, rfl⟩ := h
  refine ⟨sure >>= fun a => (hf a.1 a.2).choose, ?_⟩
  rw [map_bind, bind_map_left]
  exact bind_congr fun a => (hf a.1 a.2).choose_spec

theorem ensures_pure {a : α} (ha : p a) : Ensures p (pure a : Action m α) :=
  ⟨pure ⟨a, ha⟩, by rw [map_pure]⟩

theorem ensures_bind_pure (step : Action m α) {f : α → β} (hf : ∀ a, q (f a)) :
    Ensures q (step >>= fun a => pure (f a)) :=
  ⟨step >>= fun a => pure ⟨f a, hf a⟩, by simp⟩

theorem ensures_foldlM {step : β → α → Action m β} (hstep : ∀ b a, q b → Ensures q (step b a))
    (items : List α) {b : β} (hb : q b) : Ensures q (items.foldlM step b) := by
  induction items generalizing b with
  | nil => exact ensures_pure hb
  | cons a items ih =>
      rw [List.foldlM_cons]
      exact (hstep b a hb).bind fun b hb => ih hb

-- Two folds are the same when their steps are, as long as a property holds that
-- the steps keep.
theorem foldlM_congr {step other : β → α → Action m β}
    (hstep : ∀ b a, q b → Ensures q (step b a)) (hsame : ∀ b a, q b → step b a = other b a)
    (items : List α) {b : β} (hb : q b) : items.foldlM step b = items.foldlM other b := by
  induction items generalizing b with
  | nil => rfl
  | cons a items ih =>
      rw [List.foldlM_cons, List.foldlM_cons, ← hsame b a hb]
      exact (hstep b a hb).congr fun b hb => ih hb

end Ensures

theorem forM_congr {m : Type → Type} [Monad m] {α : Type} {f g : α → Action m Unit}
    {items : List α} (hsame : ∀ a ∈ items, f a = g a) :
    items.forM f = items.forM g := by
  induction items with
  | nil => rfl
  | cons a items ih =>
      change (f a >>= fun _ => items.forM f) = (g a >>= fun _ => items.forM g)
      rw [hsame a List.mem_cons_self, ih fun a ha => hsame a (List.mem_cons_of_mem _ ha)]

theorem within_of_below {directory path : List Char} (h : Below directory path) :
    Within directory path := by
  obtain ⟨names, -, hnames⟩ := h
  exact ⟨names, hnames⟩

-- Two hosts that do the same, except perhaps with what is to be created or
-- altered outside of a directory.
structure Alike {m : Type → Type} (directory : String) (host other : Host m) : Prop where
  openFile : host.openFile = other.openFile
  isSameFile : host.isSameFile = other.isSameFile
  write : host.write = other.write
  complain : host.complain = other.complain
  createDirectories : ∀ path : String, Within directory.toList path.toList →
    host.createDirectories path = other.createDirectories path
  createFile : ∀ path : String, Below directory.toList path.toList →
    host.createFile path = other.createFile path
  writeFile : ∀ (path : String) (content : ByteArray), Below directory.toList path.toList →
    host.writeFile path content = other.writeFile path content
  setModified : ∀ (path : String) (time : Int), Below directory.toList path.toList →
    host.setModified path time = other.setModified path time

-- A host that creates and alters nothing at a place.
@[reducible]
def refusing {m : Type → Type} [Monad m] (fault : IoFault) (place : String) (host : Host m) :
    Host m :=
  { host with
    createFile := fun path =>
      if path = place then pure (.error fault) else host.createFile path
    writeFile := fun path content =>
      if path = place then pure (.error fault) else host.writeFile path content
    createDirectories := fun path =>
      if path = place then pure (.error fault) else host.createDirectories path
    setModified := fun path time =>
      if path = place then pure (.error fault) else host.setModified path time }

theorem alike_refusing {m : Type → Type} [Monad m] {fault : IoFault} {directory place : String}
    {host : Host m} (houtside : ¬ Within directory.toList place.toList) :
    Alike directory host (refusing fault place host) where
  openFile := rfl
  isSameFile := rfl
  write := rfl
  complain := rfl
  createDirectories path h := (if_neg fun heq : path = place => houtside (heq ▸ h)).symm
  createFile path h := (if_neg fun heq : path = place => houtside (heq ▸ within_of_below h)).symm
  writeFile path _ h :=
    (if_neg fun heq : path = place => houtside (heq ▸ within_of_below h)).symm
  setModified path _ h :=
    (if_neg fun heq : path = place => houtside (heq ▸ within_of_below h)).symm

namespace Extraction

variable {m : Type → Type} [Monad m] {host other : Host m} {manner : Manner} {options : Options}
  {directory path : String} {e : Entry}

theorem isName_of_mem_relativePath {part : List Char} (hne : e.relativePath ≠ "")
    (hpart : part ∈ Text.Path.split e.relativePath.toList) : Text.Path.IsName part := by
  rw [Entry.relativePath, Text.Path.split_sanitize hne] at hpart
  exact Text.Path.isName_of_mem_nameParts hpart

theorem target_eq_some (h : target directory e = some path) :
    e.relativePath ≠ "" ∧ path = Text.Path.under directory e.relativePath := by
  rw [target] at h
  split at h
  · cases h
  · exact ⟨‹_›, (Option.some.inj h).symm⟩

theorem below_target (h : target directory e = some path) :
    Below directory.toList path.toList := by
  obtain ⟨hne, rfl⟩ := target_eq_some h
  exact Text.Path.below_under fun part => isName_of_mem_relativePath hne

theorem within_parent_target (h : target directory e = some path) :
    Within directory.toList (Text.Path.parent path).toList := by
  refine Text.Path.within_parent (below_target h) ?_
  obtain ⟨hne, rfl⟩ := target_eq_some h
  have hparts : ∀ part ∈ Text.Path.split e.relativePath.toList, Text.Path.IsName part :=
    fun part => isName_of_mem_relativePath hne
  have hlast : Text.Path.lastPart (Text.Path.under directory e.relativePath).toList =
      Text.Path.lastPart e.relativePath.toList := by
    have hrelative := Text.Path.head?_ne_slash fun part hpart => (hparts part hpart).ne_nil
    obtain ⟨-, hunder⟩ | ⟨front, hunder, -⟩ := @Text.Path.toList_under directory _ hrelative
    · rw [hunder]
    · rw [hunder, Text.Path.lastPart_append]
  obtain ⟨above, hsplit⟩ := Text.Path.exists_lastPart e.relativePath.toList
  rw [hlast]
  exact (hparts _ (hsplit ▸ List.mem_append_right above List.mem_cons_self)).proper

theorem extractFile_congr (h : Alike options.directory host other)
    (htarget : target options.directory e = some path) (archive : Archive ByteArray) :
    @extractFile m _ host options path e archive =
      @extractFile m _ other options path e archive := by
  have hbelow := below_target htarget
  have hwrite := fun content => h.writeFile path content hbelow
  have htime := fun time => h.setModified path time hbelow
  simp only [extractFile, afterCreating, restoreTime, h.isSameFile, h.createFile path hbelow,
    h.createDirectories _ (within_parent_target htarget), hwrite, htime]

theorem note_congr (h : Alike directory host other) (level : Level) (text : String) :
    @Action.note m _ host manner level text = @Action.note m _ other manner level text := by
  simp only [Action.note, Action.complain, h.complain]

theorem extractEntry_congr (h : Alike options.directory host other) (progress : Progress)
    (e : Entry) :
    @extractEntry m _ host manner options progress e =
      @extractEntry m _ other manner options progress e := by
  unfold extractEntry
  cases htarget : target options.directory e with
  | none => simp only [note_congr h]
  | some path =>
      have hcreate := h.createDirectories path (within_of_below (below_target htarget))
      simp only [hcreate, extractFile_congr h htarget]

-- The directories whose times are kept lie below the one that is extracted to.
def Settled (directory : String) (progress : Progress) : Prop :=
  ∀ kept ∈ progress.times, Below directory.toList kept.1.toList

theorem restoreTimes_congr (h : Alike options.directory host other) {progress : Progress}
    (hsettled : Settled options.directory progress) :
    (progress.times.forM fun (path, time) => @restoreTime m _ host path (some time)) =
      progress.times.forM fun (path, time) => @restoreTime m _ other path (some time) := by
  refine forM_congr fun kept hkept => ?_
  simp only [restoreTime, h.setModified kept.1 _ (hsettled kept hkept)]

variable [LawfulMonad m]

theorem settled_extractEntry [Host m] {progress : Progress}
    (h : Settled options.directory progress) (e : Entry) :
    Ensures (Settled options.directory) (extractEntry (m := m) manner options progress e) := by
  unfold extractEntry
  cases htarget : target options.directory e with
  | none => exact ensures_bind_pure _ fun _ => h
  | some path =>
      dsimp only
      split
      · refine ensures_bind_pure _ fun _ kept hkept => ?_
        rcases List.mem_append.mp hkept with hnew | hold
        · obtain ⟨time, -, rfl⟩ := Option.map_eq_some_iff.mp (Option.mem_toList.mp hnew)
          exact below_target htarget
        · exact h kept hold
      · exact ensures_bind_pure _ fun _ => h

-- Every entry is put below the directory, and the times that are restored in the
-- end are those of directories that were put there.
theorem entries_congr (h : Alike options.directory host other) (entries : List Entry)
    (archive : Archive ByteArray) (last : Action m Unit) :
    (do let progress ← entries.foldlM (@extractEntry m _ host manner options) ⟨archive, []⟩
        progress.times.forM fun (path, time) => @restoreTime m _ host path (some time)
        last) =
      (do let progress ← entries.foldlM (@extractEntry m _ other manner options) ⟨archive, []⟩
          progress.times.forM fun (path, time) => @restoreTime m _ other path (some time)
          last) := by
  have hnone : Settled options.directory ⟨archive, []⟩ := fun _ hkept =>
    absurd hkept List.not_mem_nil
  have hstep : ∀ progress e, Settled options.directory progress →
      Ensures (Settled options.directory) (@extractEntry m _ host manner options progress e) :=
    fun _ e hsettled => @settled_extractEntry m _ _ _ _ host _ hsettled e
  rw [← foldlM_congr hstep (fun progress e _ => extractEntry_congr h progress e) entries hnone]
  refine (ensures_foldlM hstep entries hnone).congr fun progress hsettled => ?_
  rw [restoreTimes_congr h hsettled]

theorem run_congr (h : Alike options.directory host other) :
    @run m _ host manner options = @run m _ other manner options := by
  have hdetect : @detect m _ host options.path = @detect m _ other options.path := by
    simp only [detect, h.openFile]
  have hopen : @openArchive m _ host manner options.path =
      @openArchive m _ other manner options.path := by
    simp only [openArchive, h.openFile, note_congr h]
  simp only [run, hdetect, hopen, Action.say, h.write, note_congr h, entries_congr h]

-- Where extraction puts things. A sanitized name has the parts of the name that
-- lead somewhere, so that what it is joined to is never left: nothing that a host
-- does elsewhere, when it is told to create or to alter something, makes a difference.
theorem run_stays_below (h : Alike options.directory host other) :
    (∀ e : Entry,
      e.relativePath.toList = ['/'].intercalate
        (((e.name.toList.splitOn '/').filter
          fun part => part ≠ [] ∧ part ≠ ['.'] ∧ part ≠ ['.', '.']).map
            (List.map fun c => if c = '\x00' then '_' else c)) ∧
      Clean e.relativePath.toList ∧
      Text.Path.sanitize e.relativePath = e.relativePath ∧
      ∀ directory, match target directory e with
        | none => e.relativePath = ""
        | some path => e.relativePath ≠ "" ∧
            path = Text.Path.under directory e.relativePath ∧
            Below directory.toList path.toList) ∧
    @run m _ host manner options = @run m _ other manner options := by
  refine ⟨fun e => ⟨?_, Text.Path.clean_sanitize e.name, Text.Path.sanitize_sanitize e.name,
    fun directory => ?_⟩, run_congr h⟩
  · rw [← Text.Path.split_eq_splitOn]
    exact Text.Path.toList_sanitize e.name
  · cases htarget : target directory e with
    | none =>
        by_contra hne
        rw [target, if_neg hne] at htarget
        cases htarget
    | some path =>
        obtain ⟨hne, hpath⟩ := target_eq_some htarget
        exact ⟨hne, hpath, below_target htarget⟩

-- An entry that asks for a file of the system is put below the directory, and the
-- file of the system is not touched.
theorem run_stays_below_out :
    Alike "out" (inferInstance : Host (StateM Scene))
        (refusing Files.Refusal.missing "/etc/passwd" inferInstance) ∧
      target "out" (Entry.file "/../..//etc/passwd" 0) = some "out/etc/passwd" ∧
      ∀ manner selection,
        @run (StateM Scene) _ inferInstance manner ⟨"a.zip", "out", selection⟩ =
          @run (StateM Scene) _ (refusing Files.Refusal.missing "/etc/passwd" inferInstance)
            manner ⟨"a.zip", "out", selection⟩ := by
  have halike : Alike "out" (inferInstance : Host (StateM Scene))
      (refusing Files.Refusal.missing "/etc/passwd" inferInstance) := by
    refine alike_refusing ?_
    rintro ⟨names, -, hnames⟩
    cases hnames
  refine ⟨halike, by decide, fun manner selection => ?_⟩
  exact (@run_stays_below _ _ _ _ manner ⟨"a.zip", "out", selection⟩ _ halike).2

end Extraction

end Unpack.Command
