import Mathlib.Data.List.Basic
import Unpack.Text.Path

namespace Unpack.Text.Path

variable {part path front back : List Char} {parts : List (List Char)}

theorem split_eq_splitOn (path : List Char) : split path = path.splitOn '/' := by
  fun_induction split path with
  | case1 => rfl
  | case2 rest ih =>
      rw [List.splitOn_cons_eq_if_modifyHead, ih]
      rfl
  | case3 c rest hslash hnone ih => exact absurd (ih ▸ hnone) (List.splitOn_ne_nil _ _)
  | case4 c rest hslash part parts hparts ih =>
      have hother : (c == '/') = false := by simpa using hslash
      rw [List.splitOn_cons_eq_if_modifyHead, ← ih, hparts, hother]
      rfl

theorem split_ne_nil (path : List Char) : split path ≠ [] := by
  rw [split_eq_splitOn]
  exact List.splitOn_ne_nil _ _

theorem split_append (front back : List Char) :
    split (front ++ '/' :: back) = split front ++ split back := by
  simp only [split_eq_splitOn, List.splitOn_append_cons_self]

theorem split_join (hne : parts ≠ []) (hparts : ∀ part ∈ parts, '/' ∉ part) :
    split (join parts) = parts := by
  rw [split_eq_splitOn, join, List.splitOn_intercalate _ hparts hne]

theorem join_split (path : List Char) : join (split path) = path := by
  rw [split_eq_splitOn, join, List.intercalate_splitOn]

theorem slash_not_mem_of_mem_split (h : part ∈ split path) : '/' ∉ part := by
  fun_induction split path generalizing part with
  | case1 =>
      cases List.mem_singleton.mp h
      exact List.not_mem_nil
  | case2 rest ih =>
      rcases List.mem_cons.mp h with rfl | hrest
      · exact List.not_mem_nil
      · exact ih hrest
  | case3 c rest hslash hnone ih => exact absurd hnone (split_ne_nil _)
  | case4 c rest hslash first parts hparts ih =>
      rw [hparts] at ih
      rcases List.mem_cons.mp h with rfl | hrest
      · rintro (_ | ⟨_, htail⟩)
        · exact hslash rfl
        · exact ih List.mem_cons_self htail
      · exact ih (List.mem_cons_of_mem _ hrest)

theorem join_singleton (part : List Char) : join [part] = part :=
  List.intercalate_singleton

theorem join_cons (part : List Char) (hne : parts ≠ []) :
    join (part :: parts) = part ++ '/' :: join parts := by
  rw [join, List.intercalate_cons_of_ne_nil hne, List.append_assoc, List.singleton_append, join]

theorem join_concat (part : List Char) (hne : parts ≠ []) :
    join (parts ++ [part]) = join parts ++ '/' :: part := by
  induction parts with
  | nil => exact absurd rfl hne
  | cons first parts ih =>
      by_cases hlast : parts = []
      · subst hlast
        rw [List.singleton_append, join_cons first (List.cons_ne_nil part []), join_singleton,
          join_singleton]
      · rw [List.cons_append, join_cons first (by simp), ih hlast, join_cons first hlast,
          List.append_assoc, List.cons_append]

theorem join_eq_nil (hparts : ∀ part ∈ parts, part ≠ []) (h : join parts = []) : parts = [] := by
  cases parts with
  | nil => rfl
  | cons first parts =>
      by_cases hlast : parts = []
      · subst hlast
        exact absurd ((join_singleton first).symm.trans h) (hparts _ List.mem_cons_self)
      · rw [join_cons first hlast] at h
        simp at h

def Component.name? : Component → Option (List Char)
  | .named name => some name
  | _ => none

theorem name?_component? (part : List Char) :
    (component? part).bind Component.name? = if isProper part then some part else none := by
  by_cases hnone : part = [] ∨ part = ['.']
  · rw [component?, if_pos hnone]
    rcases hnone with rfl | rfl <;> rfl
  · by_cases habove : part = ['.', '.']
    · subst habove
      rfl
    · have hproper : isProper part = true := by
        rw [not_or] at hnone
        simp [isProper, hnone, habove]
      rw [component?, if_neg hnone, if_neg habove, if_pos hproper]
      rfl

-- The names that a path leads through are its proper parts.
theorem names_components (path : List Char) :
    (components path).filterMap Component.name? = (split path).filter isProper := by
  have horigin : (origin? path).toList.filterMap Component.name? = [] := by
    rw [origin?]
    split
    · rfl
    · split <;> rfl
  rw [components, List.filterMap_append, horigin, List.nil_append, List.filterMap_filterMap]
  simp only [name?_component?]
  exact congrFun List.filterMap_eq_filter _

-- A part that can be the name of a file.
structure IsName (part : List Char) : Prop where
  proper : isProper part = true
  noSlash : '/' ∉ part
  noNul : '\x00' ∉ part

theorem IsName.ne_nil (h : IsName part) : part ≠ [] := by
  rintro rfl
  exact absurd h.proper (by decide)

-- Only underscores are new.
theorem replaceNul_eq_self {c : Char} (h : replaceNul c ≠ '_') : replaceNul c = c := by
  rw [replaceNul] at h ⊢
  split at h
  · exact absurd rfl h
  · exact if_neg ‹_›

theorem replaceNul_ne_nul (c : Char) : replaceNul c ≠ '\x00' := by
  rw [replaceNul]
  split
  · decide
  · assumption

theorem map_replaceNul_of_noNul (hnul : '\x00' ∉ part) : part.map replaceNul = part := by
  refine (List.map_congr_left fun c hc => ?_).trans (List.map_id part)
  have hother : c ≠ '\x00' := fun heq => hnul (heq ▸ hc)
  exact if_neg hother

theorem map_replaceNul_eq_iff {other : List Char} (hnew : '_' ∉ other) (hnul : '\x00' ∉ other) :
    part.map replaceNul = other ↔ part = other := by
  constructor
  · intro hmap
    rw [← hmap] at hnew ⊢
    refine (List.map_id part).symm.trans (List.map_congr_left fun c hc => ?_)
    have hmem : replaceNul c ∈ part.map replaceNul := List.mem_map_of_mem hc
    have hself : replaceNul c = c := replaceNul_eq_self fun heq : replaceNul c = '_' => hnew (heq ▸ hmem)
    exact hself.symm
  · rintro rfl
    exact map_replaceNul_of_noNul hnul

-- Replacing NUL makes no part a special one and no special part a name.
theorem isProper_map_replaceNul (part : List Char) :
    isProper (part.map replaceNul) = isProper part := by
  have hdot : part.map replaceNul = ['.'] ↔ part = ['.'] :=
    map_replaceNul_eq_iff (by decide) (by decide)
  have habove : part.map replaceNul = ['.', '.'] ↔ part = ['.', '.'] :=
    map_replaceNul_eq_iff (by decide) (by decide)
  simp only [isProper, ne_eq, List.map_eq_nil_iff, hdot, habove]

theorem slash_not_mem_map (h : '/' ∉ part) : '/' ∉ part.map replaceNul := by
  intro hmem
  obtain ⟨c, hc, heq⟩ := List.mem_map.mp hmem
  have hself := replaceNul_eq_self (heq ▸ by decide : replaceNul c ≠ '_')
  exact h (hself.symm.trans heq ▸ hc)

theorem nul_not_mem_map (part : List Char) : '\x00' ∉ part.map replaceNul := by
  intro hmem
  obtain ⟨c, -, heq⟩ := List.mem_map.mp hmem
  exact replaceNul_ne_nul c heq

-- The parts that a sanitized path has.
def nameParts (path : List Char) : List (List Char) :=
  ((split path).filter isProper).map (List.map replaceNul)

theorem isName_of_mem_nameParts (h : part ∈ nameParts path) : IsName part := by
  obtain ⟨original, horiginal, rfl⟩ := List.mem_map.mp h
  obtain ⟨hmem, hproper⟩ := List.mem_filter.mp horiginal
  exact ⟨(isProper_map_replaceNul original).trans hproper,
    slash_not_mem_map (slash_not_mem_of_mem_split hmem), nul_not_mem_map original⟩

theorem enter_named (name : List Char) (hparts : ∀ part ∈ parts, part ≠ []) :
    enter (join parts) (.named name) = join (parts ++ [name.map replaceNul]) := by
  by_cases hfirst : parts = []
  · subst hfirst
    exact (join_singleton _).symm
  · have hjoin : join parts ≠ [] := mt (join_eq_nil hparts) hfirst
    rw [enter, if_neg hjoin, List.append_assoc, List.singleton_append, join_concat _ hfirst]

-- The names that are still to come are joined to what has been entered.
theorem foldl_enter (found : List Component) (hparts : ∀ part ∈ parts, part ≠ [])
    (hnames : ∀ name ∈ found.filterMap Component.name?, name ≠ []) :
    found.foldl enter (join parts) =
      join (parts ++ (found.filterMap Component.name?).map (List.map replaceNul)) := by
  induction found generalizing parts with
  | nil => rw [List.filterMap_nil, List.map_nil, List.append_nil, List.foldl_nil]
  | cons component found ih =>
      cases component with
      | named name =>
          have hname : name ≠ [] := hnames name List.mem_cons_self
          have hmore : ∀ part ∈ parts ++ [name.map replaceNul], part ≠ [] := by
            intro part hpart
            rcases List.mem_append.mp hpart with hold | hnew
            · exact hparts part hold
            · rw [List.mem_singleton.mp hnew]
              exact mt List.map_eq_nil_iff.mp hname
          rw [List.foldl_cons, enter_named name hparts,
            ih hmore fun name hmem => hnames name (List.mem_cons_of_mem _ hmem), List.append_assoc]
          rfl
      | root => exact ih hparts hnames
      | here => exact ih hparts hnames
      | above => exact ih hparts hnames

theorem toList_sanitize (path : String) :
    (sanitize path).toList = join (nameParts path.toList) := by
  have hnil : join [] = [] := rfl
  have hnames : ∀ name ∈ (components path.toList).filterMap Component.name?, name ≠ [] := by
    intro name hname
    rw [names_components] at hname
    rintro rfl
    exact absurd (List.mem_filter.mp hname).2 (by decide)
  rw [sanitize, String.toList_ofList, ← hnil, foldl_enter _ (by simp) hnames, names_components,
    List.nil_append, nameParts]

theorem mem_join {c : Char} (h : c ∈ join parts) : c = '/' ∨ ∃ part ∈ parts, c ∈ part := by
  induction parts with
  | nil => exact absurd h List.not_mem_nil
  | cons first parts ih =>
      by_cases hlast : parts = []
      · subst hlast
        rw [join_singleton] at h
        exact .inr ⟨first, List.mem_cons_self, h⟩
      · rw [join_cons first hlast] at h
        rcases List.mem_append.mp h with hfirst | hrest
        · exact .inr ⟨first, List.mem_cons_self, hfirst⟩
        · rcases List.mem_cons.mp hrest with hslash | hmore
          · exact .inl hslash
          · rcases ih hmore with hslash | ⟨part, hpart, hc⟩
            · exact .inl hslash
            · exact .inr ⟨part, List.mem_cons_of_mem _ hpart, hc⟩

-- What a sanitized path is like: no slash at its ends, no empty, dotted or upward
-- part, and no NUL. The empty path has no parts.
structure Clean (path : List Char) : Prop where
  begins : path.head? ≠ some '/'
  ends : path.getLast? ≠ some '/'
  proper : path ≠ [] → ∀ part ∈ path.splitOn '/', isProper part = true
  noNul : '\x00' ∉ path

-- A slash at either end of a path would make an empty part.
theorem clean_join (hparts : ∀ part ∈ parts, IsName part) : Clean (join parts) := by
  have hsplit : join parts ≠ [] → split (join parts) = parts := fun hne =>
    split_join (fun hnil => hne (hnil ▸ rfl)) fun part hpart => (hparts part hpart).noSlash
  have hempty : [] ∉ parts := fun hmem => (hparts [] hmem).ne_nil rfl
  refine ⟨fun hhead => ?_, fun hlast => ?_, fun hne => ?_, fun hnul => ?_⟩
  · obtain ⟨rest, hrest⟩ := List.head?_eq_some_iff.mp hhead
    have hfront := split_append [] rest
    rw [List.nil_append, ← hrest, hsplit (by simp [hrest])] at hfront
    exact hempty (hfront ▸ List.mem_append_left _ List.mem_cons_self)
  · obtain ⟨front, hfront⟩ := List.getLast?_eq_some_iff.mp hlast
    have hback := split_append front []
    rw [← hfront, hsplit (by simp [hfront])] at hback
    exact hempty (hback ▸ List.mem_append_right _ List.mem_cons_self)
  · rw [← split_eq_splitOn, hsplit hne]
    exact fun part hpart => (hparts part hpart).proper
  · rcases mem_join hnul with hslash | ⟨part, hpart, hc⟩
    · exact absurd hslash (by decide)
    · exact (hparts part hpart).noNul hc

theorem clean_sanitize (path : String) : Clean (sanitize path).toList := by
  rw [toList_sanitize]
  exact clean_join fun part => isName_of_mem_nameParts

theorem split_sanitize {path : String} (hne : sanitize path ≠ "") :
    split (sanitize path).toList = nameParts path.toList := by
  rw [toList_sanitize]
  refine split_join (fun hnil => hne ?_) fun part hpart => (isName_of_mem_nameParts hpart).noSlash
  rw [← String.toList_inj, toList_sanitize, hnil]
  rfl

-- What was sanitized stays as it is.
theorem sanitize_sanitize (path : String) : sanitize (sanitize path) = sanitize path := by
  by_cases hempty : sanitize path = ""
  · rw [hempty]
    rfl
  · have hproper : (nameParts path.toList).filter isProper = nameParts path.toList :=
      List.filter_eq_self.mpr fun part hpart => (isName_of_mem_nameParts hpart).proper
    have hsame : (nameParts path.toList).map (List.map replaceNul) = nameParts path.toList :=
      (List.map_congr_left fun part hpart =>
        map_replaceNul_of_noNul (isName_of_mem_nameParts hpart).noNul).trans (List.map_id _)
    rw [← String.toList_inj, toList_sanitize, nameParts, split_sanitize hempty, hproper, hsame,
      toList_sanitize]

section Below

-- A path below a directory goes on from it through one or more names.
def Below (directory path : List Char) : Prop :=
  ∃ names : List (List Char), names ≠ [] ∧ (∀ name ∈ names, IsName name) ∧
    components path = components directory ++ names.map .named

-- The directory itself, or a path below it.
def Within (directory path : List Char) : Prop :=
  ∃ names : List (List Char), (∀ name ∈ names, IsName name) ∧
    components path = components directory ++ names.map .named

theorem head?_split_append (front back : List Char) :
    (split (front ++ '/' :: back)).head? = (split front).head? := by
  rw [split_append, List.head?_append_of_ne_nil _ (split_ne_nil front)]

-- What comes behind a slash is added to what comes before it.
theorem components_append (front back : List Char) :
    components (front ++ '/' :: back) =
      components (front ++ ['/']) ++ (split back).filterMap component? := by
  have horigin : origin? (front ++ '/' :: back) = origin? (front ++ ['/']) := by
    rw [origin?, origin?, head?_split_append, head?_split_append]
    cases front <;> rfl
  have hnothing : (split ([] : List Char)).filterMap component? = [] := rfl
  rw [components, components, horigin, split_append, split_append, List.filterMap_append,
    List.filterMap_append, hnothing, List.append_nil, List.append_assoc]

-- A slash behind a path adds nothing.
theorem components_concat (hne : path ≠ []) : components (path ++ ['/']) = components path := by
  have horigin : origin? (path ++ ['/']) = origin? path := by
    rw [origin?, origin?, head?_split_append, List.head?_append_of_ne_nil _ hne]
  have hnothing : (split ([] : List Char)).filterMap component? = [] := rfl
  rw [components, components, horigin, split_append, List.filterMap_append, hnothing,
    List.append_nil]

theorem component?_of_proper (hproper : isProper part = true) :
    component? part = some (.named part) := by
  simp only [isProper, decide_eq_true_eq] at hproper
  obtain ⟨hempty, hdot, habove⟩ := hproper
  rw [component?, if_neg (not_or.mpr ⟨hempty, hdot⟩), if_neg habove]

theorem filterMap_component? (hparts : ∀ part ∈ parts, isProper part = true) :
    parts.filterMap component? = parts.map .named := by
  rw [← List.filterMap_eq_map]
  exact List.filterMap_congr fun part hpart => component?_of_proper (hparts part hpart)

theorem head?_ne_slash (hparts : ∀ part ∈ split path, part ≠ []) : path.head? ≠ some '/' := by
  intro hhead
  obtain ⟨rest, rfl⟩ := List.head?_eq_some_iff.mp hhead
  exact hparts [] List.mem_cons_self rfl

-- A path of proper parts says nothing of where it begins.
theorem components_of_proper (hproper : ∀ part ∈ split path, isProper part = true) :
    components path = (split path).map .named := by
  have hroot : path.head? ≠ some '/' := by
    refine head?_ne_slash fun part hpart hempty => ?_
    subst hempty
    exact absurd (hproper [] hpart) (by decide)
  have hhere : (split path).head? ≠ some ['.'] := by
    intro hhead
    exact absurd (hproper ['.'] (List.mem_of_head? hhead)) (by decide)
  rw [components, origin?, if_neg hroot, if_neg hhere, filterMap_component? hproper]
  rfl

theorem toList_under {directory path : String} (hrelative : path.toList.head? ≠ some '/') :
    directory = "" ∧ under directory path = path ∨
      ∃ front, (under directory path).toList = front ++ '/' :: path.toList ∧
        components (front ++ ['/']) = components directory.toList := by
  rw [under, if_neg hrelative]
  split
  case isTrue hempty => exact .inl ⟨hempty, rfl⟩
  case isFalse hnamed =>
    refine .inr ?_
    split
    case isTrue hslashed =>
      obtain ⟨front, hfront⟩ := List.getLast?_eq_some_iff.mp hslashed
      refine ⟨front, ?_, hfront ▸ rfl⟩
      rw [String.toList_append, hfront, List.append_assoc, List.singleton_append]
    case isFalse =>
      refine ⟨directory.toList, ?_, components_concat fun hnil => hnamed ?_⟩
      · rw [String.toList_append, String.toList_append, List.append_assoc]
        rfl
      · exact String.toList_inj.mp hnil

theorem below_under {directory path : String} (hpath : ∀ part ∈ split path.toList, IsName part) :
    Below directory.toList (under directory path).toList := by
  have hproper : ∀ part ∈ split path.toList, isProper part = true := fun part hpart =>
    (hpath part hpart).proper
  have hrelative := head?_ne_slash fun part hpart => (hpath part hpart).ne_nil
  refine ⟨split path.toList, split_ne_nil _, hpath, ?_⟩
  rcases @toList_under directory _ hrelative with ⟨rfl, hunder⟩ | ⟨front, hunder, hfront⟩
  · rw [hunder, components_of_proper hproper]
    rfl
  · rw [hunder, components_append, hfront, filterMap_component? hproper]

theorem exists_lastPart (path : List Char) : ∃ above, split path = above ++ [lastPart path] := by
  refine ⟨(split path).dropLast, ?_⟩
  rw [lastPart, List.getLastD_eq_getLast?, List.getLast?_eq_some_getLast (split_ne_nil path),
    Option.getD_some, List.dropLast_append_getLast]

theorem lastPart_append (front back : List Char) :
    lastPart (front ++ '/' :: back) = lastPart back := by
  obtain ⟨above, hback⟩ := exists_lastPart back
  rw [lastPart, split_append, hback, ← List.append_assoc, List.getLastD_concat]

-- The last name of a path leads on from its parent.
theorem components_parent {path : String} (hlast : isProper (lastPart path.toList) = true) :
    components path.toList =
      components (parent path).toList ++ [.named (lastPart path.toList)] := by
  obtain ⟨above, hsplit⟩ := exists_lastPart path.toList
  have hmem : lastPart path.toList ∈ split path.toList := by simp [hsplit]
  have hslash := slash_not_mem_of_mem_split hmem
  have hwhole := join_split path.toList
  obtain ⟨last, hname⟩ : ∃ last, lastPart path.toList = last := ⟨_, rfl⟩
  rw [hname] at hsplit hlast hslash ⊢
  rw [hsplit] at hwhole
  have halone : split last = [last] := by
    rw [split_eq_splitOn, List.splitOn_eq_singleton hslash]
  have hproper : ∀ part ∈ split last, isProper part = true := by
    rw [halone]
    simpa using hlast
  rw [parent, hsplit, List.dropLast_concat]
  by_cases hbare : above = []
  · subst hbare
    rw [List.nil_append, join_singleton] at hwhole
    have hroot : last.head? ≠ some '/' := fun hhead => hslash (List.mem_of_head? hhead)
    rw [← hwhole, components_of_proper hproper, halone]
    simp [hroot, join, components, origin?, split, component?]
  · rw [join_concat _ hbare] at hwhole
    rw [← hwhole, components_append, filterMap_component? hproper, halone]
    by_cases hroot : join above = []
    · simp [hroot]
    · have habove : String.ofList (join above) ≠ "" := by simpa using hroot
      rw [if_neg fun h => habove h.1, String.toList_ofList, components_concat hroot]
      rfl

theorem within_parent {directory path : String} (h : Below directory.toList path.toList)
    (hlast : isProper (lastPart path.toList) = true) :
    Within directory.toList (parent path).toList := by
  obtain ⟨names, hsome, hnames, hpath⟩ := h
  refine ⟨names.dropLast, fun name hname => hnames name (List.dropLast_subset _ hname), ?_⟩
  have hfront := congrArg List.dropLast ((components_parent hlast).symm.trans hpath)
  rw [List.dropLast_concat, List.dropLast_append_of_ne_nil (by simpa using hsome)] at hfront
  rw [hfront, List.map_dropLast]

end Below

end Unpack.Text.Path
