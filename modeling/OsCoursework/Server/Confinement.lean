import Mathlib.Data.List.TakeWhile
import OsCoursework.Server.RequestLine
import OsCoursework.Support.Delimiter
import OsCoursework.Support.PathResolution

/-!
# The files a request can name

`requestParseURI` puts every name below `./public`: a URI with two dots in a row is
answered with the home page, and nothing that is put in front of a URI or behind it
brings two dots together.  What the server answers therefore depends on nothing
outside that directory, as long as there are no links that lead out of it.
-/

namespace OsCoursework.Server

open OsCoursework.Delimiter OsCoursework.PathResolution

/-- The directory of the pages, seen from the working directory. -/
def publicDir (cwd : List Text) : List Text :=
  cwd ++ ["public".toList]

/-- What a file name denotes. -/
def denotes (cwd : List Text) (filename : Text) : List Text :=
  resolve '/' '.' cwd filename

/-- What the server relies on when it opens the file of a URI. -/
structure Confined (cwd : List Text) (uri : Text) (parsed : ParsedUri) : Prop where
  start : "./public/".toList <+: parsed.filename
  no_dots : ¬ "..".toList <:+: parsed.filename
  inside : publicDir cwd <+: denotes cwd parsed.filename
  query : parsed.isStatic = false → ∀ before after, uri = before ++ '?' :: after →
    '?' ∉ before →
      parsed.filename = "./public/".toList ++ before ∧ parsed.cgiargs = after
  no_query : parsed.isStatic = false → '?' ∉ uri →
    parsed.filename = "./public/".toList ++ uri ∧ parsed.cgiargs = []

theorem denotes_public (cwd : List Text) :
    denotes cwd "./public".toList = publicDir cwd := by
  have hparts : "./public".toList.splitOn '/' = [".".toList, "public".toList] := by
    decide
  have hhead : "./public".toList.head? ≠ some '/' := by decide
  rw [denotes, resolve, hparts, if_neg hhead]
  rfl

theorem public_append (rest : Text) :
    "./public/".toList ++ rest = "./public".toList ++ '/' :: rest := by
  have hslash : "./public/".toList = "./public".toList ++ ['/'] := by decide
  rw [hslash, List.append_assoc, List.singleton_append]

/-- A name without two dots stays in the directory. -/
theorem denotes_inside (cwd : List Text) {rest : Text} (h : ¬ "..".toList <:+: rest) :
    publicDir cwd <+: denotes cwd ("./public/".toList ++ rest) := by
  rw [← denotes_public, public_append]
  apply prefix_resolve cwd (by decide)
  have hdots : "..".toList = ['.', '.'] := by decide
  rw [← hdots]
  exact h

/-- Two dots cannot meet across a slash. -/
theorem not_dots_of_slash {front rest : Text} (hfront : ¬ "..".toList <:+: front)
    (hrest : ¬ "..".toList <:+: rest) : ¬ "..".toList <:+: front ++ '/' :: rest := by
  intro h
  have hword : '/' ∉ "..".toList := by decide
  rcases infix_or_infix_of_append_cons hword h with hleft | hright
  · exact hfront hleft
  · exact hrest hright

/-- A file name comes from a part without two dots. -/
theorem filename_eq (uri : Text) : ∃ rest,
    (requestParseURI uri).filename = "./public/".toList ++ rest ∧
      ¬ "..".toList <:+: rest := by
  rw [requestParseURI]
  have hhome : ¬ "..".toList <:+: "home.html".toList := by decide
  split
  · exact ⟨"home.html".toList, by decide, hhome⟩
  · next hdots =>
    split
    · dsimp only
      split
      · next hslash =>
        obtain ⟨init, rfl⟩ := List.getLast?_eq_some_iff.mp hslash
        have hinit : ¬ "..".toList <:+: init := fun h =>
          hdots (h.trans (List.prefix_append init _).isInfix)
        refine ⟨init ++ ['/'] ++ "home.html".toList, ?_, ?_⟩
        · rw [List.append_assoc]
        · rw [List.append_assoc, List.singleton_append]
          exact not_dots_of_slash hinit hhome
      · exact ⟨uri, rfl, hdots⟩
    · refine ⟨uri.takeWhile (· ≠ '?'), rfl, fun h => hdots ?_⟩
      exact h.trans (List.takeWhile_prefix _).isInfix

/-- The file of a URI lies in the directory of the pages. -/
theorem filename_inside (cwd : List Text) (uri : Text) :
    publicDir cwd <+: denotes cwd (requestParseURI uri).filename := by
  obtain ⟨rest, hfilename, hrest⟩ := filename_eq uri
  rw [hfilename]
  exact denotes_inside cwd hrest

/-- The name and the arguments of a program. -/
theorem dynamic_eq {uri : Text} (h : (requestParseURI uri).isStatic = false) :
    (requestParseURI uri).filename =
        "./public/".toList ++ uri.takeWhile (· ≠ '?') ∧
      (requestParseURI uri).cgiargs = (uri.dropWhile (· ≠ '?')).tail := by
  revert h
  rw [requestParseURI]
  split
  · intro h
    cases h
  · split
    · dsimp only
      split
      · intro h
        cases h
      · intro h
        cases h
    · intro _
      exact ⟨rfl, rfl⟩

/-- No URI leads out of `./public`. -/
theorem requestParseURI_confined (cwd : List Text) (uri : Text) :
    Confined cwd uri (requestParseURI uri) := by
  obtain ⟨rest, hfilename, hrest⟩ := filename_eq uri
  have hfront : ¬ "..".toList <:+: "./public".toList := by decide
  constructor
  · rw [hfilename]
    exact List.prefix_append _ rest
  · rw [hfilename, public_append]
    exact not_dots_of_slash hfront hrest
  · exact filename_inside cwd uri
  · rintro hdynamic before after rfl hbefore
    obtain ⟨hname, hargs⟩ := dynamic_eq hdynamic
    rw [hname, hargs, takeWhile_append_cons hbefore, dropWhile_append_cons hbefore]
    exact ⟨rfl, rfl⟩
  · intro hdynamic hnone
    obtain ⟨hname, hargs⟩ := dynamic_eq hdynamic
    rw [hname, hargs, takeWhile_eq_self hnone, dropWhile_eq_nil hnone]
    exact ⟨rfl, rfl⟩

/-! ## What an answer depends on -/

/-- Two hosts that differ only in what lies outside the directory of the pages. -/
structure SameInside (cwd : List Text) (host host' : Host) : Prop where
  stat : ∀ name, publicDir cwd <+: denotes cwd name → host.stat name = host'.stat name
  contents : ∀ name, publicDir cwd <+: denotes cwd name →
    host.contents name = host'.contents name
  cgi : ∀ name cgiargs, publicDir cwd <+: denotes cwd name →
    host.cgi name cgiargs = host'.cgi name cgiargs
  malloc : host.malloc = host'.malloc
  stale : host.stale = host'.stale

variable {cwd : List Text} {host host' : Host}

theorem prepare_congr (h : SameInside cwd host host') (method uri : Text)
    (t : ThreadsStats) : prepare host method uri t = prepare host' method uri t := by
  have hinside := filename_inside cwd uri
  have hstatic : ∀ size,
      requestPrepareStatic host (requestParseURI uri).filename size =
        requestPrepareStatic host' (requestParseURI uri).filename size := by
    intro size
    rw [requestPrepareStatic, requestPrepareStatic, h.contents _ hinside, h.malloc,
      h.stale]
  have hdynamic : ∀ cgiargs,
      requestPrepareDynamic host (requestParseURI uri).filename cgiargs =
        requestPrepareDynamic host' (requestParseURI uri).filename cgiargs := by
    intro cgiargs
    rw [requestPrepareDynamic, requestPrepareDynamic, h.cgi _ _ hinside, h.malloc]
  rw [prepare, prepare]
  simp only [h.stat _ hinside, hstatic, hdynamic]

/-- Whatever the URI, the answer does not depend on files outside the directory. -/
theorem requestHandle_congr (h : SameInside cwd host host') (method uri : Text)
    (tm : TimeStats) (t : ThreadsStats) (log : LogBuffer) :
    requestHandle host method uri tm t log = requestHandle host' method uri tm t log := by
  rw [requestHandle, requestHandle, prepare_congr h]

/-- With arrays of `MAXLINE` bytes, every name that is written lies there too. -/
theorem Checked.filename_inside (cwd : List Text) {uri : Text}
    {parsed : Checked.ParsedUri} (hlen : uri.length < maxLine)
    (h : Checked.requestParseURI (some uri) = .ok parsed) :
    publicDir cwd <+: denotes cwd parsed.filename := by
  rw [Checked.requestParseURI_eq hlen] at h
  rcases Nat.lt_or_ge (Server.requestParseURI uri).filename.length maxLine with
    hlt | hge
  · rw [format_of_lt hlt] at h
    rw [← congrArg ParsedUri.filename (Except.ok.inj h)]
    exact Server.filename_inside cwd uri
  · rw [format_of_ge hge] at h
    cases h

end OsCoursework.Server
