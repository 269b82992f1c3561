import Peen.Base

/-!
# The read-only proxy of the Docker socket

Which requests the proxy forwards to the daemon (`dockerproxy/allowlist.go`), and for which answers it
redacts the environment.
-/

namespace Peen.DockerProxy

open List

section
variable (requestPath : Text) (segments : List String) (segment : String) (s : Text)

inductive Access where
  | refused
  | forward
  | redactEnv
  deriving DecidableEq

/-- What `refusalReason` reads of an `http.Request`; the values of a header under its canonical name. -/
structure Request where
  method : String
  rawPath : Text
  path : Text
  header : String → List Text

def split (separator : Char) : List String := (s.splitOn separator).map String.ofList

def isUncleanPath : Bool :=
  requestPath ≠ ['/'] && (split requestPath '/').zipIdx.any fun (segment, index) =>
    (segment == "" && 0 < index) || segment == "." || segment == ".."

/-- A token that is `upgrade` for `strings.EqualFold`: only ASCII letters fold with its letters. -/
def isUpgradeToken (token : Text) : Bool := (trimSpace token).map Char.toLower == "upgrade".toList

def requestsUpgrade (header : String → List Text) : Bool :=
  (header "Upgrade").headD [] ≠ [] ||
    (header "Connection").any fun value => (value.splitOn ',').any isUpgradeToken

def isDigits (value : Text) : Bool := value ≠ [] && value.all fun c => '0' ≤ c && c ≤ '9'

def isAPIVersion : Bool :=
  segment.toList.head? == some 'v' &&
    match segment.toList.tail.splitOn '.' with
    | [major, minor] => isDigits major && isDigits minor
    | _ => false

def classifyOne : Access :=
  if segment ∈ ["_ping", "version", "info", "events", "networks", "volumes"] then .forward
  else .refused

def classifyPair (collection item : String) : Access :=
  if collection = "system" then if item = "df" then .forward else .refused
  else if collection = "containers" ∨ collection = "images" then
    if item = "json" then .forward else .refused
  else if collection = "networks" ∨ collection = "volumes" then .forward
  else .refused

def classifyLong : Access :=
  let last := segments.getLast?
  if segments.head? = some "containers" then
    if segments.length ≠ 3 then .refused
    else if last = some "json" then .redactEnv
    else if last = some "stats" then .forward
    else .refused
  else if segments.head? = some "images" then
    if last = some "json" then .redactEnv else .refused
  else .refused

def trimSlash : Text := if s.head? = some '/' then s.tail else s

/-- The `switch` of `classify`, over the segments behind the version. -/
def classifySegments : Access :=
  if segments = [] ∨ "" ∈ segments then .refused
  else match segments with
    | [segment] => classifyOne segment
    | [collection, item] => classifyPair collection item
    | _ => classifyLong segments

/-- A path as it came, without its slash, and without a version. -/
def classify : Access :=
  let segments := split (trimSlash requestPath) '/'
  classifySegments (if isAPIVersion (segments.headD "") then segments.tail else segments)

def refusalReason (request : Request) : String :=
  if request.method ≠ "GET" ∧ request.method ≠ "HEAD" then "only GET and HEAD requests are allowed"
  else if request.rawPath ≠ [] then "the path carries encoded characters"
  else if isUncleanPath request.path then "the path is not in canonical form"
  else if requestsUpgrade request.header then "connection upgrades are not allowed"
  else if classify request.path = .refused then
    "the endpoint is not one of the read endpoints it answers"
  else ""

def needsRedaction (statusCode : Nat) (request : Request) : Bool :=
  statusCode == 200 && request.method == "GET" && classify request.path == .redactEnv

/-! ## Canonical paths -/

/-- One element in `path.Clean`, with the elements before it, the last one first. -/
def cleanSegment (rooted : Bool) (out : List String) (segment : String) : List String :=
  if segment = "" ∨ segment = "." then out
  else if segment = ".." then
    if out.headD ".." = ".." then if rooted then [] else ".." :: out else out.tail
  else segment :: out

def join : Text := ['/'].intercalate (segments.map String.toList)

/-- `path.Clean`, by the rules of its documentation. -/
def clean (path : Text) : Text :=
  let rooted := path.head? = some '/'
  let kept := ((split path '/').foldl (cleanSegment rooted) []).reverse
  if rooted then '/' :: join kept else if kept = [] then ['.'] else join kept

/-- An element `path.Clean` leaves where it is. -/
def Plain : Prop := segment ≠ "" ∧ segment ≠ "." ∧ segment ≠ ".."

theorem join_split : join (split s '/') = s := by
  simp [join, split, Function.comp_def, intercalate_splitOn]

end

theorem split_ne_nil : split s separator ≠ [] := by simp [split, splitOn_ne_nil]

theorem split_slash (s : Text) : split ('/' :: s) '/' = "" :: split s '/' := by
  simp [split, splitOn_cons_eq_if_modifyHead]

theorem foldl_cleanSegment {segments : List String} (h : ∀ s ∈ segments, Plain s)
    (out : List String) : segments.foldl (cleanSegment rooted) out = segments.reverse ++ out := by
  induction segments generalizing out with
  | nil => rfl
  | cons s segments ih =>
    obtain ⟨hs, hdot, hdots⟩ := h s mem_cons_self
    rw [foldl_cons, ih fun s hs => h s (mem_cons_of_mem _ hs), cleanSegment]
    simp [hs, hdot, hdots]

theorem clean_eq (h : ∀ s ∈ split (trimSlash path) '/', Plain s) : clean path = path := by
  unfold clean
  by_cases hroot : path.head? = some '/'
  · obtain ⟨rest, rfl⟩ := head?_eq_some_iff.1 hroot
    rw [trimSlash, if_pos hroot, tail_cons] at h
    rw [if_pos hroot, split_slash, foldl_cons, cleanSegment, if_pos (.inl rfl),
      foldl_cleanSegment h, append_nil, reverse_reverse, join_split]
  · rw [trimSlash, if_neg hroot] at h
    rw [if_neg hroot, foldl_cleanSegment h, append_nil, reverse_reverse, if_neg split_ne_nil,
      join_split]

/-! ## Read endpoints -/

/-- An Engine API version such as `v1.43`. -/
def Version (segment : String) : Prop := ∃ major minor, isDigits major = true ∧
  isDigits minor = true ∧ segment = String.ofList ('v' :: major ++ '.' :: minor)

/-- The segments of an inspect of a container, or of an image, whose name may hold slashes. -/
inductive Inspect : List String → Prop
  | container (id : String) : Inspect ["containers", id, "json"]
  | image {name : List String} (named : name ≠ []) : Inspect ("images" :: (name ++ ["json"]))

/-- The read endpoints of the daemon. -/
inductive ReadEndpoint : List String → Prop
  | single {segment : String}
      (listed : segment ∈ ["_ping", "version", "info", "events", "networks", "volumes"]) :
      ReadEndpoint [segment]
  | diskUsage : ReadEndpoint ["system", "df"]
  | containers : ReadEndpoint ["containers", "json"]
  | images : ReadEndpoint ["images", "json"]
  | network (item : String) : ReadEndpoint ["networks", item]
  | volume (item : String) : ReadEndpoint ["volumes", item]
  | stats (id : String) : ReadEndpoint ["containers", id, "stats"]
  | inspect {segments : List String} (of : Inspect segments) : ReadEndpoint segments

theorem version_of_isAPIVersion (h : isAPIVersion s = true) : Version s := by
  obtain ⟨hv, h⟩ := Bool.and_eq_true_iff.1 h
  obtain ⟨rest, hs⟩ := head?_eq_some_iff.1 (beq_iff_eq.1 hv)
  rw [hs, tail_cons] at h
  split at h
  next major minor hparts =>
    obtain ⟨hmajor, hminor⟩ := Bool.and_eq_true_iff.1 h
    have hrest : ['.'].intercalate (rest.splitOn '.') = rest := intercalate_splitOn '.'
    rw [hparts] at hrest
    refine ⟨major, minor, hmajor, hminor, ?_⟩
    rw [← String.ofList_toList (s := s), hs, ← hrest]
    simp [intercalate]
  · cases h

theorem readEndpoint_of_classify (h : classifySegments segments ≠ .refused) :
    ReadEndpoint segments ∧ "" ∉ segments := by
  unfold classifySegments at h
  split at h
  · exact absurd rfl h
  next hne =>
  refine ⟨?_, fun hmem => hne (.inr hmem)⟩
  split at h
  next segment =>
    unfold classifyOne at h
    split at h
    next hs => exact .single hs
    · exact absurd rfl h
  next collection item =>
    unfold classifyPair at h
    grind [ReadEndpoint]
  next hone htwo =>
    rcases segments with _ | ⟨a, _ | ⟨b, _ | ⟨c, rest⟩⟩⟩
    · exact absurd (.inl rfl) hne
    · exact absurd rfl (hone a)
    · exact absurd rfl (htwo a b)
    by_cases ha : a = "containers"
    · subst ha
      cases rest with
      | nil =>
        by_cases hjson : c = "json"
        · exact .inspect (hjson ▸ .container b)
        by_cases hstats : c = "stats"
        · exact hstats ▸ .stats b
        · simp [classifyLong, hjson, hstats] at h
      | cons => simp [classifyLong] at h
    by_cases hi : a = "images"
    · subst hi
      by_cases hlast : (b :: c :: rest).getLast? = some "json"
      · obtain ⟨name, hname⟩ := getLast?_eq_some_iff.1 hlast
        rw [hname]
        exact .inspect (.image (by rintro rfl; simp at hname))
      · rw [getLast?_cons_cons] at hlast
        simp [classifyLong, hlast] at h
    · simp [classifyLong, ha, hi] at h

theorem redactEnv_of_inspect (h : Inspect segments) (hne : "" ∉ segments) :
    classifySegments segments = .redactEnv := by
  cases h with
  | container id => simp_all [classifySegments, classifyLong]
  | @image name named =>
    obtain ⟨n, name, rfl⟩ := exists_cons_of_ne_nil named
    have hlast : ("images" :: n :: (name ++ ["json"])).getLast? = some "json" := by
      rw [getLast?_eq_some_iff]
      exact ⟨"images" :: n :: name, rfl⟩
    cases name <;> simp_all [classifySegments, classifyLong]

/-! ## What is forwarded -/

theorem classify_eq (path : Text) : ∃ version segments,
    split (trimSlash path) '/' = version ++ segments ∧
      (version = [] ∨ ∃ v, version = [v] ∧ Version v) ∧
      classify path = classifySegments segments := by
  unfold classify
  cases hs : split (trimSlash path) '/' with
  | nil => exact absurd hs split_ne_nil
  | cons first rest =>
    by_cases hv : isAPIVersion first = true
    · exact ⟨[first], rest, rfl, .inr ⟨first, rfl, version_of_isAPIVersion hv⟩, by simp [hv]⟩
    · exact ⟨[], first :: rest, rfl, .inl rfl, by simp [hv]⟩

theorem mem_split_trimSlash (h : s ∈ split (trimSlash path) '/') : s ∈ split path '/' := by
  unfold trimSlash at h
  split at h
  next hroot =>
    obtain ⟨rest, rfl⟩ := head?_eq_some_iff.1 hroot
    exact mem_cons_of_mem _ h
  · exact h

theorem no_dots (h : isUncleanPath path = false) (hs : s ∈ split (trimSlash path) '/') :
    s ≠ "." ∧ s ≠ ".." := by
  by_cases hp : path = ['/']
  · subst hp
    have hs : s = "" := mem_singleton.1 hs
    subst hs
    decide
  · obtain ⟨i, hi⟩ := mem_iff_getElem?.1 (mem_split_trimSlash hs)
    simp only [isUncleanPath, hp, ne_eq, not_false_eq_true, decide_true, Bool.true_and] at h
    have hany := any_eq_false.1 h (s, i) (mk_mem_zipIdx_iff_getElem?.2 hi)
    simp_all

/-- A request that reads: its method, its path, its headers, and its endpoint, which is redacted where
it is an inspect. -/
structure Reads (request : Request) : Prop where
  method : request.method = "GET" ∨ request.method = "HEAD"
  canonical : clean request.path = request.path
  noUpgrade : (request.header "Upgrade").headD [] = [] ∧
    ∀ value ∈ request.header "Connection", ∀ token ∈ value.splitOn ',', isUpgradeToken token = false
  endpoint : ∃ version segments, split (trimSlash request.path) '/' = version ++ segments ∧
    (version = [] ∨ ∃ v, version = [v] ∧ Version v) ∧ ReadEndpoint segments ∧
    (Inspect segments → classify request.path = .redactEnv ∧
      ∀ code, needsRedaction code request = (code == 200 && request.method == "GET"))

/-- **Only read endpoints pass the proxy.** -/
theorem reads_of_forwarded (request : Request) (h : refusalReason request = "") :
    Reads request := by
  unfold refusalReason at h
  split at h
  · simp at h
  next hmethod =>
  split at h
  · simp at h
  split at h
  · simp at h
  next hpath =>
  split at h
  · simp at h
  next hup =>
  split at h
  · simp at h
  next hclass =>
  obtain ⟨version, segments, hsegs, hversion, hc⟩ := classify_eq request.path
  rw [hc] at hclass
  obtain ⟨hread, hne⟩ := readEndpoint_of_classify hclass
  refine ⟨by grind, clean_eq fun s hs => ⟨?_, no_dots (Bool.eq_false_iff.2 hpath) hs⟩, ?_,
    version, segments, hsegs, hversion, hread, fun hi => ?_⟩
  · rintro rfl
    rw [hsegs] at hs
    rcases mem_append.1 hs with hs | hs
    · rcases hversion with rfl | ⟨v, rfl, major, minor, _, _, hv⟩
      · cases hs
      · cases mem_singleton.1 hs
        simp [← String.toList_inj] at hv
    · exact hne hs
  · simpa [requestsUpgrade] using hup
  · have hredact := redactEnv_of_inspect hi hne
    exact ⟨hc.trans hredact, fun code => by simp [needsRedaction, hc, hredact]⟩

def inspectRequest : Request :=
  ⟨"GET", [], "/v1.43/containers/db/json".toList, fun _ => []⟩

theorem reads_of_forwarded_inspect : refusalReason inspectRequest = "" ∧ Reads inspectRequest := by
  have h : refusalReason inspectRequest = "" := by decide +kernel
  exact ⟨h, reads_of_forwarded inspectRequest h⟩

end Peen.DockerProxy
