import LinuxPractice.HttpServer
import LinuxPractice.Paths

/-!
# Which files a request can reach

The url is appended to `./wwwroot` as it is. So its `..` components lead out
of the web root, and without a slash in front it changes the root's name.
-/
namespace HttpServerPaths

open CppString Decimal HttpServer Paths

/-- "wwwroot". -/
def rootName : Bytes := ['w', 'w', 'w', 'r', 'o', 'o', 't'].map byte

/-- The web root, for a server that runs in `cwd`. -/
def root (cwd : List Bytes) : List Bytes := cwd ++ [rootName]

/-- `url_path` leads to the web root or below. -/
def InRoot (cwd : List Bytes) (path : Bytes) : Prop := Inside 47 46 cwd wwwroot path

/-- The components of a url behind its first slash. -/
def tailComponents (url : Bytes) : List (Component Bytes) := (components 47 46 url).tail

/-- Nothing stands before the first slash, or a later `..` takes it back; and if the other
components go up `k` times, the names they keep begin with the last `k` names of the root. -/
def Confined (cwd : List Bytes) (url : Bytes) : Prop :=
  ((∀ b ∈ url.head?, b = 47) ∨ 0 < climbs (tailComponents url)) ∧
    (root cwd).drop ((root cwd).length - climbs (tailComponents url)) <+: kept (tailComponents url)

variable {cwd : List Bytes} {url : Bytes}

theorem resolve_wwwroot (cwd : List Bytes) : resolvePath 47 46 cwd wwwroot = root cwd := rfl

/-- The first component of the url becomes part of the root's name. -/
theorem resolve_wwwroot_append {t : Bytes} {ts : List Bytes} (h : url.splitOn 47 = t :: ts) :
    resolvePath 47 46 cwd (wwwroot ++ url) =
      resolve (cwd ++ [rootName ++ t]) (tailComponents url) := by
  have hsplit : (wwwroot ++ url).splitOn 47 = [46] :: (rootName ++ t) :: ts := by
    have hdot : (47 : UInt8) ∉ [(46 : UInt8)] := by decide
    have hname : (47 : UInt8) ∉ rootName := by decide
    have hpath : wwwroot ++ url = [46] ++ 47 :: (rootName ++ url) := rfl
    rw [hpath, List.splitOn_append_cons_self_of_not_mem hdot, splitOn_append_left hname, h]
    rfl
  have hname : Component.ofText 46 (rootName ++ t) = .name (rootName ++ t) :=
    ofText_cons (by decide) _
  have htail : tailComponents url = ts.map (Component.ofText 46) := by
    rw [tailComponents, components, h]
    rfl
  rw [resolvePath, components, hsplit, List.map_cons, List.map_cons, hname, htail]
  rfl

theorem first_eq_nil_iff {t : Bytes} {ts : List Bytes} (h : url.splitOn 47 = t :: ts) :
    t = [] ↔ ∀ b ∈ url.head?, b = 47 := by
  cases url with
  | nil =>
    cases h
    simp
  | cons b url =>
    rw [List.splitOn_cons_eq_if_modifyHead] at h
    by_cases hb : b = 47
    · simp only [hb, beq_self_eq_true, if_true, List.cons.injEq] at h
      simp [← h.1, hb]
    · obtain ⟨u, us, hs⟩ := List.exists_cons_of_ne_nil (List.splitOn_ne_nil 47 url)
      simp only [beq_iff_eq, hb, if_false, hs, List.modifyHead_cons, List.cons.injEq] at h
      simp [← h.1, hb]

theorem inRoot_append_iff : InRoot cwd (wwwroot ++ url) ↔ Confined cwd url := by
  obtain ⟨t, ts, hs⟩ := List.exists_cons_of_ne_nil (List.splitOn_ne_nil 47 url)
  rw [InRoot, Inside, resolve_wwwroot, resolve_wwwroot_append hs, Confined, ← first_eq_nil_iff hs]
  by_cases ht : t = []
  · rw [ht, List.append_nil, ← root, prefix_resolve_iff]
    simp
  · have hne : rootName ≠ rootName ++ t := by simpa using Ne.symm ht
    rw [root, prefix_resolve_sibling_iff hne]
    simp [ht]

theorem confined_of_climbs (hslash : ∀ b ∈ url.head?, b = 47)
    (hnone : climbs (tailComponents url) = 0) : Confined cwd url := by
  have hdrop : (root cwd).drop ((root cwd).length - climbs (tailComponents url)) = [] :=
    List.drop_of_length_le (by omega)
  rw [Confined, hdrop]
  exact ⟨.inl hslash, List.nil_prefix⟩

/-- With the slash in front it is enough that every front of the url goes down as often as up. -/
theorem confined_of_balanced (hslash : ∀ b ∈ url.head?, b = 47)
    (hup : ∀ front, front <+: tailComponents url →
      front.countP Component.isUp ≤ front.countP Component.isName) : Confined cwd url :=
  confined_of_climbs hslash (Nat.le_zero.mp (climbs_le_iff.mpr hup))

/-- A url that goes up can only come back by naming the root. -/
theorem Confined.name_mem (h : Confined cwd url) (hup : 0 < climbs (tailComponents url)) :
    rootName ∈ kept (tailComponents url) := by
  apply h.2.subset
  have hlen : (root cwd).length = cwd.length + 1 := by simp [root]
  rw [root] at hlen ⊢
  rw [List.drop_append_of_le_length (by omega)]
  simp

theorem inRoot_urlPath_iff : InRoot cwd (urlPath url) ↔ Confined cwd url := by
  unfold urlPath
  split
  · rename_i hurl
    rcases hurl with rfl | rfl
    · rw [inRoot_append_iff]
      have hhome : Confined cwd (47 :: homepage) := confined_of_climbs (by simp) (by decide)
      have hslash : Confined cwd [47] := confined_of_climbs (by simp) (by decide)
      exact iff_of_true hhome hslash
    · exact inRoot_append_iff
  · exact inRoot_append_iff

/-- The file opened lies in the web root exactly if the second word of the first line is a url
that does not leave it. -/
theorem inRoot_iff_confined (cwd : List Bytes) {received line : Bytes}
    (h : firstLine received = some line) :
    ∃ req, request received = .ok req ∧ (InRoot cwd req.urlPath ↔ Confined cwd (target line)) := by
  obtain ⟨req, hreq, hpath, -⟩ := request_ok h
  refine ⟨req, hreq, ?_⟩
  rw [hpath]
  exact inRoot_urlPath_iff

theorem inRoot_iff_confined_home : ∃ req, request (getHome ++ sep ++ sep) = .ok req ∧
    InRoot [rootName] req.urlPath := by
  obtain ⟨req, hreq, hiff⟩ := inRoot_iff_confined [rootName] firstLine_getHome
  have hslash : (target getHome).head? = some 47 := by decide
  refine ⟨req, hreq, hiff.mpr (confined_of_balanced (by simp [hslash]) fun front hfront => ?_)⟩
  have hnone : (tailComponents (target getHome)).countP Component.isUp = 0 := by decide
  have hle := hfront.sublist.countP_le (p := Component.isUp)
  omega

/-- "GET /../../etc/passwd HTTP/1.0". -/
def getPasswd : Bytes :=
  ['G', 'E', 'T', ' ', '/', '.', '.', '/', '.', '.', '/', 'e', 't', 'c', '/', 'p', 'a', 's', 's',
    'w', 'd', ' ', 'H', 'T', 'T', 'P', '/', '1', '.', '0'].map byte

/-- Wherever the server runs, this request opens a file outside. -/
theorem passwd_leaves (cwd : List Bytes) : ∃ req, request (getPasswd ++ sep ++ sep) = .ok req ∧
    ¬ InRoot cwd req.urlPath := by
  have hline : firstLine (getPasswd ++ sep ++ sep) = some getPasswd :=
    firstLine_line (by decide) (by decide) (by decide) sep
  obtain ⟨req, hreq, hpath, -⟩ := request_ok hline
  refine ⟨req, hreq, ?_⟩
  rw [hpath, inRoot_urlPath_iff]
  intro h
  exact absurd (h.name_mem (by decide)) (by decide)

theorem request_not_inRoot :
    ¬ ∀ req, request (getPasswd ++ sep ++ sep) = .ok req → InRoot [rootName] req.urlPath := by
  intro h
  obtain ⟨req, hreq, hout⟩ := passwd_leaves [rootName]
  exact hout (h req hreq)

end HttpServerPaths
