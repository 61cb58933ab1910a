import LinuxPractice.HttpServer

/-!
# The announced content type

`suffix` is what follows the last dot of the url, and the file opened is named
by `url_path`. Both come to the same entry of the table.
-/
namespace HttpServerTypes

open CppString Decimal HttpServer

/-- What `content_type` is filled with. -/
def types : List (Bytes × Bytes) := [(htmlSuffix, textHtml), (pngSuffix, imagePng)]

/-- The entry of an extension; one that is missing or unknown counts as `.html`. -/
def entry (ext : Option Bytes) : Bytes := (ext.bind fun e => types.lookup e).getD textHtml

/-- What follows the last slash. -/
def lastComponent (path : Bytes) : Bytes :=
  match rfind path 47 with
  | none => path
  | some pos => path.drop (pos + 1)

/-- A name from its last dot on. -/
def extension (name : Bytes) : Option Bytes := (rfind name 46).map name.drop

variable {front back name : Bytes}

theorem suffixToDesc_eq (s : Bytes) : suffixToDesc s = entry (some s) := by
  unfold suffixToDesc
  split
  · rename_i hhtml
    rw [hhtml]
    decide
  · rename_i hhtml
    split
    · rename_i hpng
      rw [hpng]
      decide
    · rename_i hpng
      have hhtml' : (s == htmlSuffix) = false := beq_eq_false_iff_ne.mpr hhtml
      have hpng' : (s == pngSuffix) = false := beq_eq_false_iff_ne.mpr hpng
      simp [entry, types, List.lookup_cons, hhtml', hpng']

/-- A text is one component, or it ends in one behind a slash. -/
theorem component_cases (path : Bytes) :
    (47 : UInt8) ∉ path ∨ ∃ front name, path = front ++ 47 :: name ∧ (47 : UInt8) ∉ name := by
  cases h : rfind path 47 with
  | none => exact .inl (rfind_eq_none_iff.mp h)
  | some pos =>
    obtain ⟨front, name, hpath, hname, -⟩ := rfind_eq_some_iff.mp h
    exact .inr ⟨front, name, hpath, hname⟩

theorem lastComponent_self (h : (47 : UInt8) ∉ name) : lastComponent name = name := by
  rw [lastComponent, rfind_eq_none_iff.mpr h]

theorem lastComponent_slash (h : (47 : UInt8) ∉ name) (front : Bytes) :
    lastComponent (front ++ 47 :: name) = name := by
  rw [lastComponent, rfind_append h]
  simp

theorem lastComponent_append (h : (47 : UInt8) ∉ back) (front : Bytes) :
    lastComponent (front ++ back) = lastComponent front ++ back := by
  rcases component_cases front with hfront | ⟨dir, name, rfl, hname⟩
  · rw [lastComponent_self hfront, lastComponent_self (by simp [hfront, h])]
  · rw [lastComponent_slash hname, List.append_assoc, List.cons_append]
    exact lastComponent_slash (by simp [hname, h]) dir

theorem lastComponent_suffix (path : Bytes) : lastComponent path <:+ path := by
  rcases component_cases path with hpath | ⟨front, name, rfl, hname⟩
  · rw [lastComponent_self hpath]
  · rw [lastComponent_slash hname]
    exact ⟨front ++ [47], by simp⟩

theorem extension_none (h : (46 : UInt8) ∉ name) : extension name = none := by
  rw [extension, rfind_eq_none_iff.mpr h]
  rfl

theorem extension_dot (h : (46 : UInt8) ∉ back) (front : Bytes) :
    extension (front ++ 46 :: back) = some (46 :: back) := by
  rw [extension, rfind_append h]
  simp

/-- What stands in front of a name without a dot does not change its extension. -/
theorem extension_append (h : (46 : UInt8) ∉ front) (name : Bytes) :
    extension (front ++ name) = extension name := by
  by_cases hname : (46 : UInt8) ∈ name
  · obtain ⟨pos, hpos⟩ := Option.ne_none_iff_exists'.mp (mt rfind_eq_none_iff.mp (not_not.mpr hname))
    obtain ⟨base, ext, rfl, hext, -⟩ := rfind_eq_some_iff.mp hpos
    rw [extension_dot hext, ← List.append_assoc, extension_dot hext]
  · rw [extension_none hname, extension_none (by simp [h, hname])]

/-- No known extension has a slash in it. -/
theorem entry_of_slash {ext : Bytes} (h : (47 : UInt8) ∈ ext) : entry (some ext) = textHtml := by
  rw [← suffixToDesc_eq]
  unfold suffixToDesc
  have hhtml : ext ≠ htmlSuffix := by
    rintro rfl
    exact absurd h (by decide)
  have hpng : ext ≠ pngSuffix := by
    rintro rfl
    exact absurd h (by decide)
  rw [if_neg hhtml, if_neg hpng]

/-- The last dot of the url is in its last component, or there is no extension. -/
theorem suffixToDesc_suffix (url : Bytes) :
    suffixToDesc (suffix url) = entry (extension (lastComponent url)) := by
  unfold suffix
  cases hdot : rfind url 46 with
  | none =>
    have hnone : (46 : UInt8) ∉ lastComponent url :=
      fun h => rfind_eq_none_iff.mp hdot ((lastComponent_suffix url).subset h)
    rw [extension_none hnone]
    rfl
  | some pos =>
    obtain ⟨base, ext, rfl, hext, rfl⟩ := rfind_eq_some_iff.mp hdot
    simp only [List.drop_left, suffixToDesc_eq]
    by_cases hslash : (47 : UInt8) ∈ 46 :: ext
    · have hin : (47 : UInt8) ∈ ext := by simpa using hslash
      obtain ⟨dir, name, rfl, hname⟩ := (component_cases ext).resolve_left (not_not_intro hin)
      have hnone : (46 : UInt8) ∉ name := fun h => hext (by simp [h])
      have hpath : base ++ 46 :: (dir ++ 47 :: name) = (base ++ 46 :: dir) ++ 47 :: name := by simp
      rw [entry_of_slash hslash, hpath, lastComponent_slash hname, extension_none hnone]
      rfl
    · rw [lastComponent_append hslash, extension_dot hext]

/-- The name of the web root has no dot, and a url without a slash goes on from it. -/
theorem extension_wwwroot_append (url : Bytes) :
    extension (lastComponent (wwwroot ++ url)) = extension (lastComponent url) := by
  rcases component_cases url with hslash | ⟨dir, name, rfl, hname⟩
  · have hroot : (46 : UInt8) ∉ lastComponent wwwroot := by decide
    rw [lastComponent_append hslash, extension_append hroot, lastComponent_self hslash]
  · rw [← List.append_assoc, lastComponent_slash hname, lastComponent_slash hname]

theorem suffixToDesc_urlPath (url : Bytes) :
    suffixToDesc (suffix url) = entry (extension (lastComponent (urlPath url))) := by
  unfold urlPath
  split
  · rename_i hhome
    rcases hhome with rfl | rfl
    · decide
    · decide
  · rw [extension_wwwroot_append, suffixToDesc_suffix]

/-- For every url, and so for every request that is parsed. -/
theorem type_matches_file :
    (∀ url : Bytes, suffixToDesc (suffix url) = entry (extension (lastComponent (urlPath url)))) ∧
      ∀ parsed req, prase parsed = some req →
        suffixToDesc req.suffix = entry (extension (lastComponent req.urlPath)) := by
  refine ⟨suffixToDesc_urlPath, ?_⟩
  rintro ⟨lines, text⟩ req h
  cases lines with
  | nil => cases h
  | cons line lines =>
    cases h
    exact suffixToDesc_urlPath _

/-- "GET /pics.d/logo.png". -/
def getLogo : Bytes :=
  ['G', 'E', 'T', ' ', '/', 'p', 'i', 'c', 's', '.', 'd', '/', 'l', 'o', 'g', 'o', '.', 'p', 'n',
    'g'].map byte

theorem type_matches_file_logo : ∃ req, prase ([getLogo], []) = some req ∧
    entry (extension (lastComponent req.urlPath)) = imagePng ∧
    suffixToDesc req.suffix = entry (extension (lastComponent req.urlPath)) :=
  ⟨_, rfl, by decide, type_matches_file.2 ([getLogo], []) _ rfl⟩

end HttpServerTypes
