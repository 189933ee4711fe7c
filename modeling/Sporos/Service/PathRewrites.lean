import Sporos.Lib.Lists
import Sporos.Lib.PathPrefix
import Sporos.Matcher.Release
import Sporos.Model.Matching
import Sporos.Service.Tables

/-! # Path rewrites

The table of prefixes by which a path of a service becomes a path of this one, and back. An entry
rewrites a path that is under its prefix; of several, the one with the longest prefix does
(`rewritePath_longest`). A table that `validate_paths` accepts has no two entries with one prefix
for one service, but a prefix may be under another one, on one side only: a path that is rewritten
there and back is the same path exactly where no entry with a longer prefix takes it on the way back
(`localToRemote_roundTrip`). -/

namespace Sporos.Service.PathRewrites

open Sporos.Model.Matching (Str)
open Sporos.Matcher.Release (bytes)
open Sporos.Service.Tables (Bytes)
open Sporos.Lib.Lists (maxByKey maxByKey_perm maxByKey_eq_some maxByKey_eq_none)
open Sporos.Lib.PathPrefix (pathComponents_push stripPrefix_eq_none)

/-- A path as the bytes that it consists of. -/
abbrev Path := Bytes

/-- `Path::is_absolute`. -/
def isAbsolute (path : Path) : Bool := Lib.UnixPath.isAbsolute 47 path

/-- `Path::components`. -/
abbrev components (path : Path) := Lib.UnixPath.pathComponents 47 46 path

/-- `Path::strip_prefix`. -/
def stripPrefix (path base : Path) : Option Path := Lib.PathPrefix.stripPrefix 47 46 path base

/-- `Path::starts_with`. -/
def startsWith (path base : Path) : Bool := Lib.PathPrefix.startsWith 47 46 path base

/-- `Path::join`. -/
def join (path name : Path) : Path := Lib.PathPrefix.push 47 path name

/-- The paths are equal, component by component. -/
abbrev SamePath (path path' : Path) : Prop := Lib.PathPrefix.SamePath 47 46 path path'

/-- `remote` and `local` are prefixes of the paths of the services, and of those here. -/
structure PathRewrite where
  name : Str
  remotePrefix : Path
  localPrefix : Path
  services : List Str
  deriving DecidableEq

/-- The root of the links, and the rewrites. -/
structure Paths where
  linkRoot : Path
  rewrite : List PathRewrite

section

variable (rewrites : List PathRewrite) (service : Str) (path : Path)
  (direction : PathRewrite → Path × Path)

/-- The rewritten paths, with the lengths of the prefixes. -/
def candidates : List (ℕ × Path) :=
  (rewrites.filter fun rewrite => rewrite.services.any (· == service)).filterMap fun rewrite =>
    let (base, target) := direction rewrite
    (stripPrefix path base).map fun suffix => ((components base).length, join target suffix)

/-- `rewrite_path`: by the longest prefix, the last one of those that are as long. -/
def rewritePath : Option Path :=
  (maxByKey Prod.fst (candidates rewrites service path direction)).map Prod.snd

end

/-- The directions of `remote_to_local` and `local_to_remote`. -/
def toLocal (rewrite : PathRewrite) : Path × Path := (rewrite.remotePrefix, rewrite.localPrefix)

/-- The prefixes of a rewrite, from the local one. -/
def toRemote (rewrite : PathRewrite) : Path × Path := (rewrite.localPrefix, rewrite.remotePrefix)

/-- `remote_to_local`. -/
def Paths.remoteToLocal (paths : Paths) (service : Str) (path : Path) : Option Path :=
  rewritePath paths.rewrite service path toLocal

/-- `local_to_remote`. -/
def Paths.localToRemote (paths : Paths) (service : Str) (path : Path) : Option Path :=
  rewritePath paths.rewrite service path toRemote

/-- The service of the torrents. -/
def qbittorrent : Str := "qbittorrent".toList

/-- `qbit_link_root`. -/
def Paths.qbitLinkRoot (paths : Paths) : Option Path :=
  paths.localToRemote qbittorrent paths.linkRoot

/-! ### Validation -/

/-- The errors of `validate_paths`. -/
inductive ConfigError where
  | absolutePath (field : Str)
  | pathRewrite
  | ambiguousPathRewrite
  deriving DecidableEq

/-- Two rewrites of one service with a prefix in common. -/
def ambiguous (left right : PathRewrite) : Bool :=
  (decide (SamePath left.localPrefix right.localPrefix)
    || decide (SamePath left.remotePrefix right.remotePrefix))
    && left.services.any fun service => right.services.contains service

/-- An entry is ambiguous with one after it. -/
def anyAmbiguous : List PathRewrite → Bool
  | [] => false
  | left :: rest => rest.any (ambiguous left) || anyAmbiguous rest

/-- The checks of the paths in the settings. -/
def validatePaths (paths : Paths) : Except ConfigError Unit :=
  if !isAbsolute paths.linkRoot then .error (.absolutePath "paths.link_root".toList)
  else if paths.rewrite.any fun rewrite =>
      rewrite.name.isEmpty || !isAbsolute rewrite.remotePrefix
        || !isAbsolute rewrite.localPrefix then
    .error .pathRewrite
  else if anyAmbiguous paths.rewrite then .error .ambiguousPathRewrite
  else .ok ()

theorem anyAmbiguous_eq_false : ∀ {rewrites : List PathRewrite}, anyAmbiguous rewrites = false →
    rewrites.Pairwise fun left right => ambiguous left right = false
  | [], _ => List.Pairwise.nil
  | left :: rest, h => by
    obtain ⟨hleft, hrest⟩ := Bool.or_eq_false_iff.mp h
    refine List.Pairwise.cons (fun right hright => ?_) (anyAmbiguous_eq_false hrest)
    exact Bool.eq_false_iff.mpr (List.any_eq_false.mp hleft right hright)

/-- What a direction needs of a table: absolute prefixes, and no two that are equal for one service.
-/
structure Unambiguous (direction : PathRewrite → Path × Path)
    (rewrites : List PathRewrite) : Prop where
  base : ∀ rewrite ∈ rewrites, isAbsolute (direction rewrite).1 = true
  target : ∀ rewrite ∈ rewrites, isAbsolute (direction rewrite).2 = true
  distinct : rewrites.Pairwise fun left right =>
    ∀ service ∈ left.services, service ∈ right.services →
      ¬ SamePath (direction left).1 (direction right).1

/-- The table of a validated configuration can be read in both directions. -/
theorem unambiguous_of_validatePaths {paths : Paths} (h : validatePaths paths = .ok ()) :
    Unambiguous toLocal paths.rewrite ∧ Unambiguous toRemote paths.rewrite := by
  unfold validatePaths at h
  split_ifs at h with hroot hentry hambiguous
  have habsolute : ∀ rewrite ∈ paths.rewrite,
      isAbsolute rewrite.remotePrefix = true ∧ isAbsolute rewrite.localPrefix = true := by
    intro rewrite hmem
    have hvalid := List.any_eq_false.mp (Bool.eq_false_iff.mpr hentry) rewrite hmem
    simp only [Bool.or_eq_true, Bool.not_eq_true', not_or, Bool.not_eq_false] at hvalid
    exact ⟨hvalid.1.2, hvalid.2⟩
  have hpair : ∀ {left right : PathRewrite}, ambiguous left right = false →
      ∀ service ∈ left.services, service ∈ right.services →
        ¬ SamePath left.localPrefix right.localPrefix
          ∧ ¬ SamePath left.remotePrefix right.remotePrefix := by
    intro left right hfalse service hleft hright
    have hshared : (left.services.any fun service => right.services.contains service) = true :=
      List.any_eq_true.mpr ⟨service, hleft, List.contains_iff_mem.mpr hright⟩
    rw [ambiguous, hshared, Bool.and_true, Bool.or_eq_false_iff] at hfalse
    exact ⟨of_decide_eq_false hfalse.1, of_decide_eq_false hfalse.2⟩
  have hpairwise := anyAmbiguous_eq_false (Bool.eq_false_iff.mpr hambiguous)
  refine ⟨⟨fun rewrite hmem => (habsolute rewrite hmem).1, fun rewrite hmem =>
    (habsolute rewrite hmem).2, ?_⟩,
    ⟨fun rewrite hmem => (habsolute rewrite hmem).2, fun rewrite hmem =>
      (habsolute rewrite hmem).1, ?_⟩⟩
  · exact hpairwise.imp fun hfalse service hleft hright => (hpair hfalse service hleft hright).2
  · exact hpairwise.imp fun hfalse service hleft hright => (hpair hfalse service hleft hright).1

/-! ### The longest prefix -/

section

variable (direction : PathRewrite → Path × Path) (rewrites : List PathRewrite)
  (service : Str) (path : Path)

/-- An entry of the service whose prefix the path is under. -/
def Matches (rewrite : PathRewrite) : Prop :=
  rewrite ∈ rewrites ∧ service ∈ rewrite.services ∧ startsWith path (direction rewrite).1 = true

/-- The prefix of a matching entry is longer than those of all others. -/
structure Longest (rewrite : PathRewrite) : Prop where
  hit : Matches direction rewrites service path rewrite
  longer : ∀ other, Matches direction rewrites service path other → other ≠ rewrite →
    (components (direction other).1).length < (components (direction rewrite).1).length

end

variable {direction : PathRewrite → Path × Path} {rewrites : List PathRewrite}
  {service : Str} {path : Path}

theorem Longest.unique {rewrite other : PathRewrite}
    (h : Longest direction rewrites service path rewrite)
    (hother : Longest direction rewrites service path other) : other = rewrite := by
  by_contra hne
  exact absurd (h.longer other hother.hit hne)
    (not_lt.mpr (hother.longer rewrite h.hit (Ne.symm hne)).le)

/-- Two prefixes of a path with one length are equal. -/
theorem samePath_of_length {base base' : Path} (h : startsWith path base = true)
    (h' : startsWith path base' = true)
    (hlength : (components base).length = (components base').length) : SamePath base base' := by
  obtain ⟨tail, htail⟩ := of_decide_eq_true h
  obtain ⟨tail', htail'⟩ := of_decide_eq_true h'
  exact (List.append_inj (htail.trans htail'.symm) hlength).1

/-- An entry that matches and the candidate that it gives. -/
theorem mem_candidates {candidate : ℕ × Path} :
    candidate ∈ candidates rewrites service path direction ↔
      ∃ rewrite ∈ rewrites, service ∈ rewrite.services ∧ ∃ suffix,
        stripPrefix path (direction rewrite).1 = some suffix
        ∧ candidate = ((components (direction rewrite).1).length,
          join (direction rewrite).2 suffix) := by
  unfold candidates
  simp only [List.mem_filterMap, List.mem_filter, List.any_eq_true, beq_iff_eq, exists_eq_right,
    Option.map_eq_some_iff, and_assoc]
  constructor
  · rintro ⟨rewrite, hmem, hservice, suffix, hsuffix, rfl⟩
    exact ⟨rewrite, hmem, hservice, suffix, hsuffix, rfl⟩
  · rintro ⟨rewrite, hmem, hservice, suffix, hsuffix, rfl⟩
    exact ⟨rewrite, hmem, hservice, suffix, hsuffix, rfl⟩

theorem exists_suffix {base : Path} :
    startsWith path base = true ↔ ∃ suffix, stripPrefix path base = some suffix := by
  rw [← Option.isSome_iff_exists, ← Option.ne_none_iff_isSome, stripPrefix, Ne, stripPrefix_eq_none,
    Bool.not_eq_false]
  rfl

/-- The lengths of the matching prefixes differ. -/
theorem nodup_lengths (h : Unambiguous direction rewrites) :
    ((candidates rewrites service path direction).map Prod.fst).Nodup := by
  rw [List.Nodup, List.pairwise_map, candidates, List.pairwise_filterMap, List.pairwise_filter]
  refine h.distinct.imp fun hne hleft hright candidate hcandidate candidate' hcandidate' heq => ?_
  simp only [List.any_eq_true, beq_iff_eq, exists_eq_right] at hleft hright
  obtain ⟨suffix, hsuffix, rfl⟩ := Option.map_eq_some_iff.mp hcandidate
  obtain ⟨suffix', hsuffix', rfl⟩ := Option.map_eq_some_iff.mp hcandidate'
  exact hne service hleft hright
    (samePath_of_length (exists_suffix.mpr ⟨suffix,
      hsuffix⟩) (exists_suffix.mpr ⟨suffix', hsuffix'⟩) heq)

theorem rewritePath_perm (h : Unambiguous direction rewrites) {rewrites' : List PathRewrite}
    (hperm : rewrites'.Perm rewrites) :
    rewritePath rewrites' service path direction = rewritePath rewrites service path direction := by
  have hcandidates : (candidates rewrites' service path direction).Perm
      (candidates rewrites service path direction) := (hperm.filter _).filterMap _
  rw [rewritePath, rewritePath, maxByKey_perm (nodup_lengths h) hcandidates]

theorem rewritePath_eq_none : rewritePath rewrites service path direction = none
    ↔ ∀ rewrite, ¬ Matches direction rewrites service path rewrite := by
  rw [rewritePath, Option.map_eq_none_iff, maxByKey_eq_none, List.eq_nil_iff_forall_not_mem]
  constructor
  · rintro hnone rewrite ⟨hmem, hservice, hstarts⟩
    obtain ⟨suffix, hsuffix⟩ := exists_suffix.mp hstarts
    exact hnone _ (mem_candidates.mpr ⟨rewrite, hmem, hservice, suffix, hsuffix, rfl⟩)
  · intro hnone candidate hcandidate
    obtain ⟨rewrite, hmem, hservice, suffix, hsuffix, -⟩ := mem_candidates.mp hcandidate
    exact hnone rewrite ⟨hmem, hservice, exists_suffix.mpr ⟨suffix, hsuffix⟩⟩

/-- What is left of the path under the one prefix, put under the other one. -/
def RewrittenBy (ends : Path × Path) (path rewritten : Path) : Prop :=
  ∃ suffix, stripPrefix path ends.1 = some suffix ∧ rewritten = join ends.2 suffix

/-- The components of the path after those of the other prefix. -/
theorem RewrittenBy.components {rewrite : PathRewrite} (h : Unambiguous direction rewrites)
    (hmem : rewrite ∈ rewrites) {rewritten : Path}
    (hrewritten : RewrittenBy (direction rewrite) path rewritten) :
    ∃ tail, PathRewrites.components path = PathRewrites.components (direction rewrite).1 ++ tail
      ∧ PathRewrites.components rewritten =
        PathRewrites.components (direction rewrite).2 ++ tail := by
  obtain ⟨suffix, hsuffix, rfl⟩ := hrewritten
  exact pathComponents_push (h.base rewrite hmem) (h.target rewrite hmem) hsuffix

/-- A rewritten path is so by the entry with the longest prefix. -/
theorem rewritePath_eq_some (h : Unambiguous direction rewrites) {rewritten : Path}
    (hrewritten : rewritePath rewrites service path direction = some rewritten) :
    ∃ rewrite, Longest direction rewrites service path rewrite
      ∧ RewrittenBy (direction rewrite) path rewritten := by
  obtain ⟨candidate, hmax, rfl⟩ := Option.map_eq_some_iff.mp hrewritten
  obtain ⟨hcandidate, hlongest⟩ := maxByKey_eq_some hmax
  obtain ⟨rewrite, hmem, hservice, suffix, hsuffix, rfl⟩ := mem_candidates.mp hcandidate
  refine ⟨rewrite, ⟨⟨hmem, hservice, exists_suffix.mpr ⟨suffix, hsuffix⟩⟩, ?_⟩,
    suffix, hsuffix, rfl⟩
  rintro other ⟨hother, hserves, hstarts⟩ hne
  obtain ⟨suffix', hsuffix'⟩ := exists_suffix.mp hstarts
  refine lt_of_le_of_ne (hlongest _ (mem_candidates.mpr ⟨other, hother, hserves,
    suffix', hsuffix', rfl⟩))
    fun hlength => ?_
  -- two entries with prefixes of one length have the same prefix, and serve one service
  have hsame := samePath_of_length hstarts (exists_suffix.mpr ⟨suffix, hsuffix⟩) hlength
  have hsymm : Std.Symm fun left right : PathRewrite =>
      ∀ service ∈ left.services, service ∈ right.services →
        ¬ SamePath (direction left).1 (direction right).1 :=
    ⟨fun left right hne service hright hleft hsame => hne service hleft hright hsame.symm⟩
  exact h.distinct.forall hother hmem hne service hserves hservice hsame

/-- **Longest prefix**: a table that is accepted rewrites a path in either direction by the entry of
the service with the longest prefix that the path is under, whatever the order of its entries. -/
theorem rewritePath_longest {paths : Paths} (h : validatePaths paths = .ok ())
    (service : Str) (path : Path) {direction : PathRewrite → Path × Path}
    (hdirection : direction = toLocal ∨ direction = toRemote) :
    (∀ rewrites, rewrites.Perm paths.rewrite →
      rewritePath rewrites service path direction =
        rewritePath paths.rewrite service path direction)
    ∧ (rewritePath paths.rewrite service path direction = none
        ↔ ∀ rewrite, ¬ Matches direction paths.rewrite service path rewrite)
    ∧ ∀ rewritten, rewritePath paths.rewrite service path direction = some rewritten →
        ∃! rewrite, Longest direction paths.rewrite service path rewrite
          ∧ RewrittenBy (direction rewrite) path rewritten
          ∧ ∃ tail, components path = components (direction rewrite).1 ++ tail
            ∧ components rewritten = components (direction rewrite).2 ++ tail := by
  have hunambiguous : Unambiguous direction paths.rewrite := by
    obtain ⟨htoLocal, htoRemote⟩ := unambiguous_of_validatePaths h
    rcases hdirection with rfl | rfl
    · exact htoLocal
    · exact htoRemote
  refine ⟨fun rewrites hperm => rewritePath_perm hunambiguous hperm, rewritePath_eq_none,
    fun rewritten hrewritten => ?_⟩
  obtain ⟨rewrite, hlongest, hby⟩ := rewritePath_eq_some hunambiguous hrewritten
  exact ⟨rewrite, ⟨hlongest, hby, hby.components hunambiguous hlongest.hit.1⟩,
    fun other hother => hlongest.unique hother.1⟩

/-- Two mounts of one service; the second one is below the first one for the service, and not here.
-/
def nestedPaths : Paths where
  linkRoot := bytes "/a/links".toList
  rewrite := [
    { name := "downloads".toList, remotePrefix := bytes "/x".toList,
      localPrefix := bytes "/a".toList, services := [qbittorrent] },
    { name := "films".toList, remotePrefix := bytes "/x/y".toList, localPrefix := bytes "/b".toList,
      services := [qbittorrent] }]

theorem rewritePath_longest_nested :
    validatePaths nestedPaths = .ok ()
    ∧ ∃! rewrite, Longest toLocal nestedPaths.rewrite qbittorrent (bytes "/x/y/f".toList) rewrite
        ∧ RewrittenBy (toLocal rewrite) (bytes "/x/y/f".toList) (bytes "/b/f".toList)
        ∧ ∃ tail, components (bytes "/x/y/f".toList) = components (toLocal rewrite).1 ++ tail
          ∧ components (bytes "/b/f".toList) = components (toLocal rewrite).2 ++ tail :=
  have hvalid : validatePaths nestedPaths = .ok () := by decide
  ⟨hvalid,
    (rewritePath_longest hvalid qbittorrent (bytes "/x/y/f".toList) (.inl rfl)).2.2 _ (by decide)⟩

/-! ### There and back -/

/-- **There and back**: a local path that is rewritten for a service is rewritten back, and to
itself exactly where the path of the service is under no prefix of the service that is longer than
the one it was given. -/
theorem localToRemote_roundTrip {paths : Paths} (h : validatePaths paths = .ok ()) {service : Str}
    {path remote : Path} (hremote : paths.localToRemote service path = some remote) :
    ∃ rewrite, Longest toRemote paths.rewrite service path rewrite
      ∧ RewrittenBy (toRemote rewrite) path remote
      ∧ ∃ back, paths.remoteToLocal service remote = some back
        ∧ (SamePath back path ↔ ∀ other ∈ paths.rewrite, service ∈ other.services →
            startsWith remote other.remotePrefix = true →
            (components other.remotePrefix).length ≤ (components rewrite.remotePrefix).length) := by
  obtain ⟨htoLocal, htoRemote⟩ := unambiguous_of_validatePaths h
  obtain ⟨rewrite, hlongest, hby⟩ := rewritePath_eq_some htoRemote hremote
  obtain ⟨tail, hpath, hremotePath⟩ := hby.components htoRemote hlongest.hit.1
  obtain ⟨hmem, hserves, hstarts⟩ := hlongest.hit
  have hback : Matches toLocal paths.rewrite service remote rewrite :=
    ⟨hmem, hserves, decide_eq_true ⟨tail, hremotePath.symm⟩⟩
  rcases hlocal : paths.remoteToLocal service remote with _ | back
  · exact absurd hback (rewritePath_eq_none.mp hlocal rewrite)
  obtain ⟨taken, htaken, htakenBy⟩ := rewritePath_eq_some htoLocal hlocal
  obtain ⟨tail', hremotePath', hbackPath⟩ := htakenBy.components htoLocal htaken.hit.1
  refine ⟨rewrite, hlongest, hby, back, rfl, ?_⟩
  constructor
  · intro hsame
    -- another entry that takes the path back has a longer local prefix that the path is under
    have heq : taken = rewrite := by
      by_contra hne
      have hlonger := htaken.longer rewrite hback (Ne.symm hne)
      have hunder : startsWith path taken.localPrefix = true :=
        decide_eq_true ⟨tail', hbackPath.symm.trans hsame⟩
      have hlocalLonger := hlongest.longer taken ⟨htaken.hit.1, htaken.hit.2.1, hunder⟩ hne
      have hsum := congrArg List.length (hpath.symm.trans (hsame.symm.trans hbackPath))
      have hremoteSum := congrArg List.length (hremotePath.symm.trans hremotePath')
      simp only [List.length_append, toLocal, toRemote] at hsum hremoteSum hlonger hlocalLonger
      omega
    rintro other hother hserves' hstarts'
    by_cases hne : other = rewrite
    · rw [hne]
    · rw [heq] at htaken
      exact (htaken.longer other ⟨hother, hserves', hstarts'⟩ hne).le
  · intro hlonger
    have heq : taken = rewrite := by
      by_contra hne
      exact absurd (hlonger taken htaken.hit.1 htaken.hit.2.1 htaken.hit.2.2)
        (not_le.mpr (htaken.longer rewrite hback (Ne.symm hne)))
    rw [heq] at hremotePath' hbackPath
    have htail : tail = tail' := List.append_cancel_left (hremotePath.symm.trans hremotePath')
    exact hbackPath.trans (htail ▸ hpath.symm)

/-- The path of the service is under the second mount, and the path here is not. -/
theorem localToRemote_nested :
    validatePaths nestedPaths = .ok ()
    ∧ nestedPaths.localToRemote qbittorrent (bytes "/a/y/f".toList) = some (bytes "/x/y/f".toList)
    ∧ nestedPaths.remoteToLocal qbittorrent (bytes "/x/y/f".toList) = some (bytes "/b/f".toList)
    ∧ ¬ SamePath (bytes "/b/f".toList) (bytes "/a/y/f".toList) := by
  decide

theorem localToRemote_roundTrip_links :
    ∃ rewrite, Longest toRemote nestedPaths.rewrite qbittorrent nestedPaths.linkRoot rewrite
      ∧ RewrittenBy (toRemote rewrite) nestedPaths.linkRoot (bytes "/x/links".toList)
      ∧ ∃ back, nestedPaths.remoteToLocal qbittorrent (bytes "/x/links".toList) = some back
        ∧ (SamePath back nestedPaths.linkRoot ↔ ∀ other ∈ nestedPaths.rewrite,
          qbittorrent ∈ other.services →
            startsWith (bytes "/x/links".toList) other.remotePrefix = true →
            (components other.remotePrefix).length ≤ (components rewrite.remotePrefix).length) :=
  localToRemote_roundTrip (by decide) (by decide)

end Sporos.Service.PathRewrites
