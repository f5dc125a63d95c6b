import Tinkiva.Lib.Binary64
import Tinkiva.Lib.Exposition
import Tinkiva.Metrics.Requests
import Tinkiva.Metrics.Scrapes

/-!
# The text of a scrape

`render` of `src/src/metrics.rs`, as the text that it makes of the values it loads.  What
the values are is said in `Tinkiva.Metrics.Scrapes`; here they are a `Scraped`.

The sum of a histogram is printed as an `f64`: the microseconds, rounded, are divided by a
million, and the quotient is displayed (`secondsOf`).  `ReadsSeconds` is what its text says.

`scrape_read_back` is about the scraper at the other end: it reads every page, the page
keeps the rules of the format, and it has the value of every series.  The series are the
same in every scrape (`series_fixed`).  `scrape_text_between` says what the numbers mean
while records go on.
-/

namespace Tinkiva.Metrics

open Exposition Binary64

/-! ## `Metrics::render` -/

/-- The bounds of `BUCKETS` in seconds, as they are displayed. -/
def BOUNDS : List String :=
  ["0.001", "0.0025", "0.005", "0.01", "0.025", "0.05", "0.1", "0.25", "0.5", "1", "2.5", "5"]

example : BOUNDS = BUCKETS.map fun nanos => display (nearest (nanos / 10 ^ 9)) := by
  decide +kernel

/-- `total_micros as f64 / 1_000_000.0`. -/
def secondsOf (micros : Nat) : ℚ := nearest (nearest micros / 1000000)

/-- Its exponent is far from both ends of the range. -/
theorem secondsOf_range {micros : Nat} (hpos : 0 < micros) (hfits : micros < 2 ^ 64) :
    1 / 2 ^ 20 ≤ secondsOf micros ∧ secondsOf micros ≤ 2 ^ 45 := by
  have hone : (1 : ℚ) ≤ micros := by exact_mod_cast hpos
  have hlast : (micros : ℚ) < 2 ^ 64 := by exact_mod_cast hfits
  have hmicros := abs_le.mp (abs_nearest_sub_le_mul (show (0 : ℚ) < micros by linarith))
  have hquotient := abs_le.mp (abs_nearest_sub_le_mul
    (show 0 < nearest micros / 1000000 by linarith))
  constructor
  · rw [secondsOf]
    linarith
  · rw [secondsOf]
    linarith

/-- What a `render` of one histogram has loaded: a value for every bucket, and the others. -/
structure ScrapedHistogram where
  rendered : Rendered
  complete : rendered.buckets.length = BUCKETS.length

/-- `ManagerStats`. -/
structure ManagerStats where
  openDatabases : Nat
  activeLeases : Nat
  maxOpenDatabases : Nat
  availableRequestSlots : Nat
  maxConcurrentRequests : Nat
  deriving DecidableEq, Repr

/-- What a `render` has loaded of a route. -/
structure ScrapedRoute where
  duration : ScrapedHistogram
  succeeded : Nat
  failed : Nat

/-- What a `render` has loaded, and the `ManagerStats` that it is given. -/
structure Scraped where
  routes : Fin ROUTES.length → ScrapedRoute
  admissionWait : ScrapedHistogram
  requestsShed : Nat
  databasesOpened : Nat
  databasesEvicted : Nat
  databasesClosedIdle : Nat
  walCheckpoints : Nat
  stats : ManagerStats

/-- `Histogram::render`, for the values that it loads. -/
def ScrapedHistogram.render (h : ScrapedHistogram) (name labels : String) : String :=
  let separator := if labels.isEmpty then "" else ","
  let braces := if labels.isEmpty then "" else "\x7b" ++ labels ++ "\x7d"
  String.join ((h.rendered.buckets.zip BOUNDS).map fun (bucket, bound) =>
    name ++ "_bucket\x7b" ++ labels ++ separator ++ "le=\"" ++ bound ++ "\"\x7d " ++ bucket.repr ++
      "\n") ++
  (name ++ "_bucket\x7b" ++ labels ++ separator ++ "le=\"+Inf\"\x7d " ++ h.rendered.count.repr ++
    "\n") ++
  (name ++ "_sum" ++ braces ++ " " ++ display (secondsOf h.rendered.totalMicros) ++ "\n") ++
  (name ++ "_count" ++ braces ++ " " ++ h.rendered.count.repr ++ "\n")

/-- The counters and gauges at the end of the page, with their kinds. -/
def Scraped.gauges (m : Scraped) : List (String × String × Nat) :=
  [ ("tinkiva_requests_shed_total", "counter", m.requestsShed),
    ("tinkiva_databases_opened_total", "counter", m.databasesOpened),
    ("tinkiva_databases_evicted_total", "counter", m.databasesEvicted),
    ("tinkiva_databases_closed_idle_total", "counter", m.databasesClosedIdle),
    ("tinkiva_wal_checkpoints_total", "counter", m.walCheckpoints),
    ("tinkiva_open_databases", "gauge", m.stats.openDatabases),
    ("tinkiva_active_leases", "gauge", m.stats.activeLeases),
    ("tinkiva_max_open_databases", "gauge", m.stats.maxOpenDatabases),
    ("tinkiva_available_request_slots", "gauge", m.stats.availableRequestSlots),
    ("tinkiva_max_concurrent_requests", "gauge", m.stats.maxConcurrentRequests) ]

/-- The routes with their names. -/
def Scraped.named (m : Scraped) : List (ScrapedRoute × String) :=
  (List.finRange ROUTES.length).map fun i => (m.routes i, ROUTES.get i)

/-- `Metrics::render`, for the values that it loads. -/
def Scraped.render (m : Scraped) : String :=
  "# TYPE tinkiva_requests_total counter\n" ++
  String.join (m.named.flatMap fun (route, name) =>
    [("ok", route.succeeded), ("error", route.failed)].map fun (outcome, counter) =>
      "tinkiva_requests_total\x7broute=\"" ++ name ++ "\",outcome=\"" ++ outcome ++ "\"\x7d " ++
        counter.repr ++ "\n") ++
  "# TYPE tinkiva_request_duration_seconds histogram\n" ++
  String.join (m.named.map fun (route, name) =>
    route.duration.render "tinkiva_request_duration_seconds"
      ("route=\"" ++ name ++ "\"")) ++
  "# TYPE tinkiva_admission_wait_seconds histogram\n" ++
  m.admissionWait.render "tinkiva_admission_wait_seconds" "" ++
  String.join (m.gauges.map fun (name, kind, value) =>
    "# TYPE " ++ name ++ " " ++ kind ++ "\n" ++ name ++ " " ++ value.repr ++ "\n")

/-! ## The page that is meant -/

/-- The samples of a histogram. -/
def ScrapedHistogram.samples (h : ScrapedHistogram) (name : String)
    (labels : List (String × String)) : List Sample :=
  (h.rendered.buckets.zip BOUNDS).map (fun (bucket, bound) =>
    ⟨name ++ "_bucket", labels ++ [("le", bound)], bucket.repr⟩) ++
  [ ⟨name ++ "_bucket", labels ++ [("le", "+Inf")], h.rendered.count.repr⟩,
    ⟨name ++ "_sum", labels, display (secondsOf h.rendered.totalMicros)⟩,
    ⟨name ++ "_count", labels, h.rendered.count.repr⟩ ]

/-- The families of a scrape. -/
def Scraped.page (m : Scraped) : List Family :=
  [ ⟨"tinkiva_requests_total", "counter", m.named.flatMap fun (route, name) =>
      [ ⟨"tinkiva_requests_total", [("route", name), ("outcome", "ok")], route.succeeded.repr⟩,
        ⟨"tinkiva_requests_total", [("route", name), ("outcome", "error")],
          route.failed.repr⟩ ]⟩,
    ⟨"tinkiva_request_duration_seconds", "histogram", m.named.flatMap fun (route, name) =>
      route.duration.samples "tinkiva_request_duration_seconds" [("route", name)]⟩,
    ⟨"tinkiva_admission_wait_seconds", "histogram",
      m.admissionWait.samples "tinkiva_admission_wait_seconds" []⟩ ] ++
  m.gauges.map fun (name, kind, value) => ⟨name, kind, [⟨name, [], value.repr⟩]⟩

/-! ## The text is that of the page -/

/-- The text of labels as `render` is given it: without braces. -/
structure Inner (inner : String) (labels : List (String × String)) : Prop where
  alone : Sample.labelsText labels =
    (if inner.isEmpty then "" else "\x7b" ++ inner ++ "\x7d").toList
  before : ∀ label, Sample.labelsText (labels ++ [label]) =
    '{' :: inner.toList ++ (if inner.isEmpty then "" else ",").toList ++ Sample.labelText label ++
      ['}']

theorem inner_nil : Inner "" [] where
  alone := rfl
  before := by
    intro label
    simp [Sample.labelsText]

/-- The texts that need no escapes. -/
def Plain (text : String) : Prop := text.toList.flatMap escape = text.toList

theorem inner_route {name : String} (h : Plain name) :
    Inner ("route=\"" ++ name ++ "\"") [("route", name)] := by
  have hempty : ("route=\"" ++ name ++ "\"").isEmpty = false := by
    rw [Bool.eq_false_iff]
    intro hempty
    rw [String.isEmpty_iff] at hempty
    have := congrArg (fun s => s.toList.length) hempty
    simp at this
  rw [Plain] at h
  constructor
  · rw [hempty]
    simp [Sample.labelsText, Sample.labelText, h]
  · intro label
    rw [hempty]
    simp [Sample.labelsText, Sample.labelText, h]

/-- The line of a bucket. -/
theorem bucket_text {inner : String} {labels : List (String × String)} (h : Inner inner labels)
    (name bound count : String) (hbound : Plain bound) :
    name ++ "_bucket\x7b" ++ inner ++ (if inner.isEmpty then "" else ",") ++ "le=\"" ++ bound ++
      "\"\x7d " ++ count ++ "\n" =
      Sample.text ⟨name ++ "_bucket", labels ++ [("le", bound)], count⟩ := by
  rw [Plain] at hbound
  rw [← String.toList_inj, Sample.text, String.toList_ofList, Sample.line, h.before]
  simp [Sample.labelText, hbound]

/-- The line of a series without a bound. -/
theorem alone_text {inner : String} {labels : List (String × String)} (h : Inner inner labels)
    (name value : String) :
    name ++ (if inner.isEmpty then "" else "\x7b" ++ inner ++ "\x7d") ++ " " ++ value ++ "\n" =
      Sample.text ⟨name, labels, value⟩ := by
  rw [← String.toList_inj, Sample.text, String.toList_ofList, Sample.line, h.alone]
  simp

theorem plain_bounds : ∀ bound ∈ BOUNDS, Plain bound := by
  simp [BOUNDS, Plain, escape]

theorem plain_routes : ∀ name ∈ ROUTES, Plain name := by
  simp [ROUTES, Plain, escape]

/-- The lines of a histogram. -/
theorem histogram_text {inner : String} {labels : List (String × String)}
    (hinner : Inner inner labels) (h : ScrapedHistogram) (name : String) :
    h.render name inner =
      String.join ((h.samples name labels).map Sample.text) := by
  have hbuckets : (h.rendered.buckets.zip BOUNDS).map (fun (bucket, bound) =>
      name ++ "_bucket\x7b" ++ inner ++ (if inner.isEmpty then "" else ",") ++ "le=\"" ++ bound ++
        "\"\x7d " ++ bucket.repr ++ "\n") =
      ((h.rendered.buckets.zip BOUNDS).map fun (bucket, bound) =>
        (⟨name ++ "_bucket", labels ++ [("le", bound)], bucket.repr⟩ : Sample)).map
          Sample.text := by
    rw [List.map_map]
    refine List.map_congr_left fun ⟨bucket, bound⟩ hmem => ?_
    exact bucket_text hinner name bound bucket.repr (plain_bounds bound (List.of_mem_zip hmem).2)
  have hinf := bucket_text hinner name "+Inf" h.rendered.count.repr (by simp [Plain, escape])
  have hsum := alone_text hinner (name ++ "_sum") (display (secondsOf h.rendered.totalMicros))
  have hcount := alone_text hinner (name ++ "_count") h.rendered.count.repr
  rw [ScrapedHistogram.render, ScrapedHistogram.samples, List.map_append, hbuckets]
  simp only [List.map_cons, List.map_nil, ← hinf, ← hsum, ← hcount]
  rw [← String.toList_inj]
  simp

theorem family_text (family : Family) :
    family.text = "# TYPE " ++ family.name ++ " " ++ family.kind ++ "\n" ++
      String.join (family.samples.map Sample.text) := by
  rw [← String.toList_inj]
  simp [Family.text, Family.line, typePrefix]

/-- The line of an outcome. -/
theorem outcome_text {name outcome : String} (hname : Plain name) (houtcome : Plain outcome)
    (count : String) :
    "tinkiva_requests_total\x7broute=\"" ++ name ++ "\",outcome=\"" ++ outcome ++ "\"\x7d " ++
      count ++ "\n" =
      Sample.text ⟨"tinkiva_requests_total", [("route", name), ("outcome", outcome)], count⟩ := by
  rw [Plain] at hname houtcome
  rw [← String.toList_inj]
  simp [Sample.text, Sample.line, Sample.labelsText, Sample.labelText, hname, houtcome]

/-- The two lines of a counter or a gauge. -/
theorem gauge_text (name kind value : String) :
    "# TYPE " ++ name ++ " " ++ kind ++ "\n" ++ name ++ " " ++ value ++ "\n" =
      Family.text ⟨name, kind, [⟨name, [], value⟩]⟩ := by
  rw [family_text, ← String.toList_inj]
  simp [Sample.text, Sample.line, Sample.labelsText]

theorem named_plain (m : Scraped) : ∀ p ∈ m.named, Plain p.2 := by
  intro p hp
  obtain ⟨i, _, rfl⟩ := List.mem_map.mp hp
  exact plain_routes _ (List.get_mem _ _)

theorem outcomes_text (m : Scraped) :
    (m.named.flatMap fun (route, name) =>
      [("ok", route.succeeded), ("error", route.failed)].map fun (outcome, counter) =>
        "tinkiva_requests_total\x7broute=\"" ++ name ++ "\",outcome=\"" ++ outcome ++ "\"\x7d " ++
          counter.repr ++ "\n") =
      (m.named.flatMap fun (route, name) =>
        [ (⟨"tinkiva_requests_total", [("route", name), ("outcome", "ok")],
            route.succeeded.repr⟩ : Sample),
          ⟨"tinkiva_requests_total", [("route", name), ("outcome", "error")],
            route.failed.repr⟩ ]).map Sample.text := by
  rw [List.map_flatMap]
  refine List.flatMap_congr fun ⟨route, name⟩ hmem => ?_
  have hname := named_plain m _ hmem
  simp only [List.map_cons, List.map_nil,
    outcome_text hname (show Plain "ok" by simp [Plain, escape]),
    outcome_text hname (show Plain "error" by simp [Plain, escape])]

theorem durations_text (m : Scraped) :
    String.join (m.named.map fun (route, name) =>
      route.duration.render "tinkiva_request_duration_seconds"
        ("route=\"" ++ name ++ "\"")) =
      String.join ((m.named.flatMap fun (route, name) =>
        route.duration.samples "tinkiva_request_duration_seconds"
          [("route", name)]).map Sample.text) := by
  rw [← String.toList_inj, String.toList_join, String.toList_join, List.map_flatMap,
    List.flatMap_map, List.flatMap_assoc]
  refine List.flatMap_congr fun ⟨route, name⟩ hmem => ?_
  dsimp only
  rw [histogram_text (inner_route (named_plain m _ hmem)), String.toList_join]

theorem gauges_text (m : Scraped) :
    (m.gauges.map fun (name, kind, value) =>
      "# TYPE " ++ name ++ " " ++ kind ++ "\n" ++ name ++ " " ++ value.repr ++ "\n") =
      (m.gauges.map fun (name, kind, value) =>
        (⟨name, kind, [⟨name, [], value.repr⟩]⟩ : Family)).map Family.text := by
  rw [List.map_map]
  exact List.map_congr_left fun ⟨name, kind, value⟩ _ => gauge_text name kind value.repr

theorem requests_type : "# TYPE tinkiva_requests_total counter\n" =
    "# TYPE " ++ "tinkiva_requests_total" ++ " " ++ "counter" ++ "\n" := by
  simp

theorem duration_type : "# TYPE tinkiva_request_duration_seconds histogram\n" =
    "# TYPE " ++ "tinkiva_request_duration_seconds" ++ " " ++ "histogram" ++ "\n" := by
  simp

theorem admission_type : "# TYPE tinkiva_admission_wait_seconds histogram\n" =
    "# TYPE " ++ "tinkiva_admission_wait_seconds" ++ " " ++ "histogram" ++ "\n" := by
  simp

/-- What `render` makes is the text of the page. -/
theorem render_eq (m : Scraped) : m.render = print m.page := by
  unfold Scraped.render
  rewrite [print_eq, Scraped.page, outcomes_text, durations_text, gauges_text,
    histogram_text inner_nil, requests_type, duration_type, admission_type]
  simp only [List.map_cons, List.cons_append, List.nil_append, String.join_cons, family_text,
    String.append_assoc]

/-! ## The page can be printed -/

/-- The text of a number has digits and a point. -/
def DecimalText (text : String) : Prop := ∀ c ∈ text.toList, c.isDigit = true ∨ c = '.'

theorem DecimalText.unbroken {text : String} (h : DecimalText text) :
    ∀ c ∈ text.toList, c ≠ ' ' ∧ c ≠ '\n' := by
  intro c hc
  rcases h c hc with hdigit | rfl
  · constructor
    all_goals
      rintro rfl
      exact absurd hdigit (by decide)
  · decide

theorem decimal_repr (n : Nat) : DecimalText n.repr := fun c hc =>
  Or.inl (Decimal.isDigit_repr n c hc)

theorem decimal_display (x : ℚ) : DecimalText (display x) := isDigit_display x

theorem isName_append {name ending : String} (h : IsName name) (h' : IsName ending) :
    IsName (name ++ ending) := by
  intro c hc
  rw [String.toList_append] at hc
  exact (List.mem_append.mp hc).elim (h c) (h' c)

/-- The samples of a histogram can be printed, under a name and labels that can. -/
theorem samples_printable (h : ScrapedHistogram) {name : String} {labels : List (String × String)}
    (hname : IsName name) (hlabels : ∀ label ∈ labels, IsName label.1) :
    ∀ sample ∈ h.samples name labels, sample.Printable := by
  have hbucket : IsName (name ++ "_bucket") := isName_append hname (by simp [IsName, isNameChar])
  have hle (bound : String) : ∀ label ∈ labels ++ [("le", bound)], IsName label.1 := by
    intro label hlabel
    rcases List.mem_append.mp hlabel with hlabel | hlabel
    · exact hlabels label hlabel
    · rw [List.mem_singleton.mp hlabel]
      simp [IsName, isNameChar]
  intro sample hsample
  rcases List.mem_append.mp hsample with hsample | hsample
  · obtain ⟨⟨bucket, bound⟩, _, rfl⟩ := List.mem_map.mp hsample
    exact ⟨hbucket, hle bound, (decimal_repr bucket).unbroken⟩
  · simp only [List.mem_cons, List.not_mem_nil, or_false] at hsample
    rcases hsample with rfl | rfl | rfl
    · exact ⟨hbucket, hle "+Inf", (decimal_repr _).unbroken⟩
    · exact ⟨isName_append hname (by simp [IsName, isNameChar]), hlabels,
        (decimal_display _).unbroken⟩
    · exact ⟨isName_append hname (by simp [IsName, isNameChar]), hlabels,
        (decimal_repr _).unbroken⟩

theorem gauges_names (m : Scraped) :
    ∀ p ∈ m.gauges, IsName p.1 ∧ '\n' ∉ p.2.1.toList := by
  simp [Scraped.gauges, IsName, isNameChar]

/-- Every page can be printed. -/
theorem page_printable (m : Scraped) : ∀ family ∈ m.page, family.Printable := by
  have hroute : IsName "route" := by simp [IsName, isNameChar]
  intro family hfamily
  rcases List.mem_append.mp hfamily with hfamily | hfamily
  · simp only [List.mem_cons, List.not_mem_nil, or_false] at hfamily
    rcases hfamily with rfl | rfl | rfl
    · refine ⟨by simp [IsName, isNameChar], by simp, ?_⟩
      intro sample hsample
      obtain ⟨⟨route, name⟩, _, hsample⟩ := List.mem_flatMap.mp hsample
      have hlabels (outcome : String) :
          ∀ label ∈ [("route", name), ("outcome", outcome)], IsName label.1 := by
        simp [IsName, isNameChar]
      simp only [List.mem_cons, List.not_mem_nil, or_false] at hsample
      rcases hsample with rfl | rfl
      · exact ⟨by simp [IsName, isNameChar], hlabels "ok", (decimal_repr _).unbroken⟩
      · exact ⟨by simp [IsName, isNameChar], hlabels "error", (decimal_repr _).unbroken⟩
    · refine ⟨by simp [IsName, isNameChar], by simp, ?_⟩
      intro sample hsample
      obtain ⟨⟨route, name⟩, _, hsample⟩ := List.mem_flatMap.mp hsample
      exact samples_printable route.duration (by simp [IsName, isNameChar])
        (by simpa using hroute) sample hsample
    · exact ⟨by simp [IsName, isNameChar], by simp,
        samples_printable m.admissionWait (by simp [IsName, isNameChar]) (by simp)⟩
  · obtain ⟨⟨name, kind, value⟩, hmem, rfl⟩ := List.mem_map.mp hfamily
    obtain ⟨hname, hkind⟩ := gauges_names m _ hmem
    refine ⟨hname, hkind, ?_⟩
    intro sample hsample
    rw [List.mem_singleton.mp hsample]
    exact ⟨hname, by simp, (decimal_repr value).unbroken⟩

/-! ## The series -/

/-- The series of a histogram. -/
def histogramSeries (name : String) (labels : List (String × String)) :
    List (String × List (String × String)) :=
  BOUNDS.map (fun bound => (name ++ "_bucket", labels ++ [("le", bound)])) ++
  [ (name ++ "_bucket", labels ++ [("le", "+Inf")]), (name ++ "_sum", labels),
    (name ++ "_count", labels) ]

/-- The names of the counters and gauges at the end of the page. -/
def GAUGES : List String :=
  [ "tinkiva_requests_shed_total", "tinkiva_databases_opened_total",
    "tinkiva_databases_evicted_total", "tinkiva_databases_closed_idle_total",
    "tinkiva_wal_checkpoints_total", "tinkiva_open_databases", "tinkiva_active_leases",
    "tinkiva_max_open_databases", "tinkiva_available_request_slots",
    "tinkiva_max_concurrent_requests" ]

/-- The series of every page. -/
def SERIES : List (String × List (String × String)) :=
  ROUTES.flatMap (fun name =>
    [ ("tinkiva_requests_total", [("route", name), ("outcome", "ok")]),
      ("tinkiva_requests_total", [("route", name), ("outcome", "error")]) ]) ++
  ROUTES.flatMap (fun name =>
    histogramSeries "tinkiva_request_duration_seconds" [("route", name)]) ++
  histogramSeries "tinkiva_admission_wait_seconds" [] ++
  GAUGES.map fun name => (name, [])

theorem series_nodup : SERIES.Nodup := by decide +kernel

theorem samples_series (h : ScrapedHistogram) (name : String) (labels : List (String × String)) :
    (h.samples name labels).map Sample.series = histogramSeries name labels := by
  have hbounds : (h.rendered.buckets.zip BOUNDS).map Prod.snd = BOUNDS :=
    List.map_snd_zip (Nat.le_of_eq (by rw [h.complete]; rfl))
  have hbuckets : (h.rendered.buckets.zip BOUNDS).map (fun p : Nat × String =>
      (name ++ "_bucket", labels ++ [("le", p.2)])) =
      BOUNDS.map fun bound => (name ++ "_bucket", labels ++ [("le", bound)]) := by
    conv_rhs => rw [← hbounds]
    rw [List.map_map]
    rfl
  rw [ScrapedHistogram.samples, List.map_append, List.map_map, histogramSeries, ← hbuckets]
  rfl

theorem named_routes (m : Scraped) : m.named.map Prod.snd = ROUTES := by
  rw [Scraped.named, List.map_map]
  exact List.map_get_finRange ROUTES

/-- A page has the same series whatever the values are. -/
theorem page_series (m : Scraped) :
    (m.page.flatMap Family.samples).map Sample.series = SERIES := by
  have hroutes {α : Type} (f : String → List α) :
      (m.named.flatMap fun p => f p.2) = ROUTES.flatMap f := by
    rw [← named_routes m, List.flatMap_map]
  have houtcomes := hroutes fun name =>
    [ ("tinkiva_requests_total", [("route", name), ("outcome", "ok")]),
      ("tinkiva_requests_total", [("route", name), ("outcome", "error")]) ]
  have hdurations := hroutes fun name =>
    histogramSeries "tinkiva_request_duration_seconds" [("route", name)]
  have hgauges : m.gauges.flatMap (fun p => [(p.1, ([] : List (String × String)))]) =
      GAUGES.map fun name => (name, []) := rfl
  rw [SERIES, ← houtcomes, ← hdurations, ← hgauges]
  simp only [Scraped.page, List.cons_append, List.nil_append, List.flatMap_cons,
    List.flatMap_map, List.map_append, List.map_flatMap, samples_series, List.append_assoc,
    List.map_cons, List.map_nil, Sample.series]

/-! ## Reading a scrape -/

theorem samples_allowed (h : ScrapedHistogram) (name : String) (labels : List (String × String)) :
    ∀ sample ∈ h.samples name labels, sample.name = name ++ "_bucket" ∨
      sample.name = name ++ "_sum" ∨ sample.name = name ++ "_count" := by
  intro sample hsample
  rcases List.mem_append.mp hsample with hsample | hsample
  · obtain ⟨p, _, rfl⟩ := List.mem_map.mp hsample
    exact .inl rfl
  · simp only [List.mem_cons, List.not_mem_nil, or_false] at hsample
    rcases hsample with rfl | rfl | rfl
    · exact .inl rfl
    · exact .inr (.inl rfl)
    · exact .inr (.inr rfl)

theorem gauges_kinds (m : Scraped) : ∀ p ∈ m.gauges, p.2.1 ≠ "histogram" := by
  simp [Scraped.gauges]

/-- Every page keeps the rules of the format. -/
theorem page_wellFormed (m : Scraped) : WellFormed m.page where
  families := by
    have hnames : m.page.map Family.name =
        ["tinkiva_requests_total", "tinkiva_request_duration_seconds",
          "tinkiva_admission_wait_seconds"] ++ GAUGES := rfl
    rw [hnames]
    decide +kernel
  series := by
    rw [page_series]
    exact series_nodup
  samples := by
    intro family hfamily sample hsample
    rcases List.mem_append.mp hfamily with hfamily | hfamily
    · simp only [List.mem_cons, List.not_mem_nil, or_false] at hfamily
      rcases hfamily with rfl | rfl | rfl
      · obtain ⟨⟨route, name⟩, _, hsample⟩ := List.mem_flatMap.mp hsample
        simp only [List.mem_cons, List.not_mem_nil, or_false] at hsample
        rw [Family.Allows, if_neg (by simp)]
        rcases hsample with rfl | rfl
        · rfl
        · rfl
      · obtain ⟨⟨route, name⟩, _, hsample⟩ := List.mem_flatMap.mp hsample
        rw [Family.Allows, if_pos rfl]
        exact samples_allowed route.duration _ _ sample hsample
      · rw [Family.Allows, if_pos rfl]
        exact samples_allowed m.admissionWait _ _ sample hsample
    · obtain ⟨⟨name, kind, value⟩, hmem, rfl⟩ := List.mem_map.mp hfamily
      rw [Family.Allows, if_neg (gauges_kinds m _ hmem), List.mem_singleton.mp hsample]

/-- What the text of a sum says: read and rounded, it is the quotient that `render` has
computed, and below `10 ^ 15` microseconds it is read as the sum itself. -/
def ReadsSeconds (text : String) (micros : Nat) : Prop :=
  ∃ d, Decimal.read text = some d ∧ nearest d = secondsOf micros ∧
    (micros < 10 ^ 15 → d = micros / 1000000)

theorem readsSeconds_display (micros : Nat) : ReadsSeconds (display (secondsOf micros)) micros := by
  have hquotient : secondsOf micros = 0 ∨ IsNormal (secondsOf micros) := by
    rcases Nat.eq_zero_or_pos micros with rfl | hpos
    · left
      simp [secondsOf]
    · right
      have hmicros : 0 < nearest micros := nearest_pos (by exact_mod_cast hpos)
      exact isNormal_nearest (by positivity)
  obtain ⟨d, hread, hvalue⟩ := read_display hquotient
  refine ⟨d, hread, hvalue, fun hfew => ?_⟩
  -- The number of microseconds is exact, and the quotient is rounded once.
  have hdecimal : (micros : ℚ) / 1000000 = micros * 10 ^ (-6 : ℤ) := by norm_num [div_eq_mul_inv]
  have hshort : secondsOf micros = nearest (micros * 10 ^ (-6 : ℤ)) := by
    rw [secondsOf, nearest_natCast (by omega), hdecimal]
  rw [hshort, read_display_short hfew] at hread
  rw [hdecimal]
  exact (Option.some.inj hread).symm

/-- A page that shows a histogram. -/
structure ScrapedHistogram.Shown (h : ScrapedHistogram) (page : List Family) (name : String)
    (labels : List (String × String)) : Prop where
  bucket : ∀ (k : Nat) (bound : String) (count : Nat), BOUNDS[k]? = some bound →
    h.rendered.buckets[k]? = some count →
    value page (name ++ "_bucket") (labels ++ [("le", bound)]) = some count.repr
  infinite : value page (name ++ "_bucket") (labels ++ [("le", "+Inf")]) =
    some h.rendered.count.repr
  sum : ∃ text, value page (name ++ "_sum") labels = some text ∧
    ReadsSeconds text h.rendered.totalMicros
  count : value page (name ++ "_count") labels = some h.rendered.count.repr

/-- The histograms with their names and labels. -/
def Scraped.histograms (m : Scraped) :
    List (String × List (String × String) × ScrapedHistogram) :=
  m.named.map (fun (route, name) =>
    ("tinkiva_request_duration_seconds", [("route", name)], route.duration)) ++
  [("tinkiva_admission_wait_seconds", [], m.admissionWait)]

/-- A page that shows all that a `render` has loaded. -/
structure Scraped.Shown (m : Scraped) (page : List Family) : Prop where
  succeeded : ∀ i, value page "tinkiva_requests_total"
    [("route", ROUTES.get i), ("outcome", "ok")] = some (m.routes i).succeeded.repr
  failed : ∀ i, value page "tinkiva_requests_total"
    [("route", ROUTES.get i), ("outcome", "error")] = some (m.routes i).failed.repr
  histograms : ∀ name labels h, (name, labels, h) ∈ m.histograms → h.Shown page name labels
  gauges : ∀ (name kind : String) (n : Nat), (name, kind, n) ∈ m.gauges →
    value page name [] = some n.repr

/-- A page shows a histogram if it has the samples. -/
theorem shown_of_samples {h : ScrapedHistogram} {page : List Family} {name : String}
    {labels : List (String × String)} (hpage : WellFormed page)
    (hsamples : ∀ sample ∈ h.samples name labels, sample ∈ page.flatMap Family.samples) :
    h.Shown page name labels where
  bucket := by
    intro k bound count hbound hcount
    refine value_of_mem hpage (hsamples ⟨_, _, count.repr⟩ (List.mem_append_left _ ?_))
    refine List.mem_map.mpr ⟨(count, bound), ?_, rfl⟩
    exact List.mem_of_getElem? (List.getElem?_zip_eq_some.mpr ⟨hcount, hbound⟩)
  infinite := value_of_mem hpage (hsamples ⟨_, _, _⟩ (List.mem_append_right _
    List.mem_cons_self))
  sum := ⟨_, value_of_mem hpage (hsamples ⟨_, _, _⟩ (List.mem_append_right _
    (List.mem_cons_of_mem _ List.mem_cons_self))), readsSeconds_display _⟩
  count := value_of_mem hpage (hsamples ⟨_, _, _⟩ (List.mem_append_right _
    (List.mem_cons_of_mem _ (List.mem_cons_of_mem _ List.mem_cons_self))))

theorem mem_named (m : Scraped) (i : Fin ROUTES.length) : (m.routes i, ROUTES.get i) ∈ m.named :=
  List.mem_map.mpr ⟨i, List.mem_finRange i, rfl⟩

/-- The page that is meant shows what has been loaded. -/
theorem page_shown (m : Scraped) : m.Shown m.page := by
  have hpage := page_wellFormed m
  have houtcomes (i : Fin ROUTES.length) {sample : Sample} (h : sample ∈
      [ (⟨"tinkiva_requests_total", [("route", ROUTES.get i), ("outcome", "ok")],
          (m.routes i).succeeded.repr⟩ : Sample),
        ⟨"tinkiva_requests_total", [("route", ROUTES.get i), ("outcome", "error")],
          (m.routes i).failed.repr⟩ ]) : sample ∈ m.page.flatMap Family.samples :=
    List.mem_flatMap.mpr ⟨_, List.mem_append_left _ List.mem_cons_self,
      List.mem_flatMap.mpr ⟨_, mem_named m i, h⟩⟩
  refine ⟨fun i => ?_, fun i => ?_, fun name labels h hmem => ?_, fun name kind n hmem => ?_⟩
  · exact value_of_mem hpage (houtcomes i List.mem_cons_self)
  · exact value_of_mem hpage (houtcomes i (List.mem_cons_of_mem _ List.mem_cons_self))
  · refine shown_of_samples hpage fun sample hsample => ?_
    rcases List.mem_append.mp hmem with hmem | hmem
    · obtain ⟨⟨route, path⟩, hnamed, heq⟩ := List.mem_map.mp hmem
      obtain ⟨rfl, rfl, rfl⟩ := heq
      exact List.mem_flatMap.mpr ⟨_, List.mem_append_left _
        (List.mem_cons_of_mem _ List.mem_cons_self), List.mem_flatMap.mpr ⟨_, hnamed, hsample⟩⟩
    · obtain ⟨rfl, rfl, rfl⟩ := List.mem_singleton.mp hmem
      exact List.mem_flatMap.mpr ⟨_, List.mem_append_left _
        (List.mem_cons_of_mem _ (List.mem_cons_of_mem _ List.mem_cons_self)), hsample⟩
  · have hfamily : (⟨name, kind, [⟨name, [], n.repr⟩]⟩ : Family) ∈ m.page :=
      List.mem_append_right _ (List.mem_map.mpr ⟨_, hmem, rfl⟩)
    have hsample : (⟨name, [], n.repr⟩ : Sample) ∈ m.page.flatMap Family.samples :=
      List.mem_flatMap.mpr ⟨_, hfamily, List.mem_singleton_self _⟩
    exact value_of_mem hpage hsample

/-- A scraper reads the page that is meant. -/
theorem parse_render (m : Scraped) : parse m.render = some m.page := by
  rw [render_eq, parse_print (page_printable m)]

/-- A scraper reads every page that `render` writes.  What it reads keeps the rules of the
format, and it has the value of every counter, gauge and histogram that was loaded. -/
theorem scrape_read_back (m : Scraped) :
    ∃ page, parse m.render = some page ∧ WellFormed page ∧ m.Shown page :=
  ⟨m.page, parse_render m, page_wellFormed m, page_shown m⟩

/-- The scraper finds the same series in every scrape: their number does not grow with the
databases. -/
theorem series_fixed (m : Scraped) :
    (parse m.render).map (fun page => (page.flatMap Family.samples).map Sample.series) =
      some SERIES ∧ SERIES.length = 76 := by
  rw [parse_render, Option.map_some, page_series]
  exact ⟨rfl, by decide⟩

/-! ## A scrape while records go on -/

/-- What a scraper reads of a histogram whose records go on while `render` loads it.  It finds
a bucket, the count or the sum as its total at some moment between the start of the `render`
and its end, and the bucket of `+Inf` agrees with the count. -/
theorem scrape_text_between {s s' : State} (hreach : histogram.Reachable s)
    (hrun : histogram.RunFrom (fun _ _ => True) s s') {i : Nat} {rendered : Rendered}
    (hnew : s.tasks.length ≤ i) (hi : s'.tasks[i]? = some (.render (.done rendered))) :
    ∃ h : ScrapedHistogram, h.rendered = rendered ∧
      ∀ (m : Scraped) (name : String) (labels : List (String × String)),
        (name, labels, h) ∈ m.histograms →
        ∃ page, parse m.render = some page ∧
          (∀ (k : Nat) (bound : String), BOUNDS[k]? = some bound →
            ∃ n, s.total k ≤ n ∧ n ≤ s'.total k ∧
              value page (name ++ "_bucket") (labels ++ [("le", bound)]) =
                some (n % 2 ^ 64).repr) ∧
          (∃ n, s.total BUCKETS.length ≤ n ∧ n ≤ s'.total BUCKETS.length ∧
            value page (name ++ "_bucket") (labels ++ [("le", "+Inf")]) =
              some (n % 2 ^ 64).repr ∧
            value page (name ++ "_count") labels = some (n % 2 ^ 64).repr) ∧
          ∃ n text, s.total SUM ≤ n ∧ n ≤ s'.total SUM ∧
            value page (name ++ "_sum") labels = some text ∧
            ReadsSeconds text (n % 2 ^ 64) := by
  obtain ⟨hlength, hbetween⟩ := scrape_between hreach hrun hnew hi
  have hcomplete : rendered.buckets.length = BUCKETS.length := by
    simp only [Rendered.values, List.length_append, List.length_singleton, SUM] at hlength
    omega
  have hcount : rendered.values[BUCKETS.length]? = some rendered.count := by
    simp [Rendered.values, ← hcomplete]
  have hsum : rendered.values[SUM]? = some rendered.totalMicros := by
    simp [Rendered.values, SUM, ← hcomplete]
  refine ⟨⟨rendered, hcomplete⟩, rfl, fun m name labels hm => ?_⟩
  have hhistogram := (page_shown m).histograms name labels _ hm
  refine ⟨m.page, parse_render m, fun k bound hbound => ?_, ?_, ?_⟩
  · have hk : k < rendered.buckets.length := by
      rw [hcomplete]
      exact (List.getElem?_eq_some_iff.mp hbound).1
    have hbucket : rendered.values[k]? = some (rendered.buckets.get ⟨k, hk⟩) := by
      rw [Rendered.values, List.append_assoc, List.getElem?_append_left hk]
      exact List.getElem?_eq_getElem hk
    obtain ⟨n, hlow, hhigh, hval⟩ := hbetween k _ hbucket
    refine ⟨n, hlow, hhigh, ?_⟩
    rw [← hval]
    exact hhistogram.bucket k bound _ hbound (List.getElem?_eq_getElem hk)
  · obtain ⟨n, hlow, hhigh, hval⟩ := hbetween _ _ hcount
    exact ⟨n, hlow, hhigh, hval ▸ hhistogram.infinite, hval ▸ hhistogram.count⟩
  · obtain ⟨n, hlow, hhigh, hval⟩ := hbetween _ _ hsum
    obtain ⟨text, htext, hreads⟩ := hhistogram.sum
    exact ⟨n, text, hlow, hhigh, htext, hval ▸ hreads⟩

/-- A scrape of a server that has served one request. -/
def oneRequest : Scraped where
  routes := fun i =>
    if i.val = 0 then ⟨⟨⟨List.replicate 12 1, 1, 750⟩, rfl⟩, 1, 0⟩
    else ⟨⟨⟨List.replicate 12 0, 0, 0⟩, rfl⟩, 0, 0⟩
  admissionWait := ⟨⟨List.replicate 12 1, 1, 0⟩, rfl⟩
  requestsShed := 0
  databasesOpened := 1
  databasesEvicted := 0
  databasesClosedIdle := 0
  walCheckpoints := 0
  stats := ⟨1, 0, 64, 256, 256⟩

/-- The second of two scrapes, as a scraper reads its sum. -/
theorem scrape_text_between_second : ∃ h : ScrapedHistogram,
    h.rendered = ⟨List.replicate 12 1, 1, 500⟩ ∧
    ∃ page, parse ({ oneRequest with admissionWait := h }).render = some page ∧
      ∃ n text, (histogram.play (fun _ _ => true) firstScrape).total SUM ≤ n ∧
        n ≤ (histogram.playFrom (fun _ _ => true) (histogram.play (fun _ _ => true) firstScrape)
          secondScrape).total SUM ∧
        value page "tinkiva_admission_wait_seconds_sum" [] = some text ∧
        ReadsSeconds text (n % 2 ^ 64) := by
  have hreach : histogram.Reachable (histogram.play (fun _ _ => true) firstScrape) :=
    StepSystem.reachable_play (fun _ _ _ => trivial) firstScrape
  have hrun : histogram.RunFrom (fun _ _ => True) (histogram.play (fun _ _ => true) firstScrape)
      (histogram.playFrom (fun _ _ => true) (histogram.play (fun _ _ => true) firstScrape)
        secondScrape) :=
    StepSystem.runFrom_playFrom (fun _ _ _ => trivial) _ secondScrape
  obtain ⟨h, hrendered, hread⟩ := scrape_text_between (i := 2) hreach hrun
    (by decide) (show _ = some (Task.render (.done ⟨List.replicate 12 1, 1, 500⟩)) by decide)
  obtain ⟨page, hparse, -, -, hsum⟩ := hread { oneRequest with admissionWait := h }
    "tinkiva_admission_wait_seconds" [] (List.mem_append_right _ (List.mem_singleton_self _))
  exact ⟨h, hrendered, page, hparse, hsum⟩

end Tinkiva.Metrics
