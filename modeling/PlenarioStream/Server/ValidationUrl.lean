import PlenarioStream.Foundation.Url
import PlenarioStream.Server.Delivery

/-!
The URL of the validation request. It is put together from the args without any
encoding, so the query API reads the same args from it only when their texts hold none
of the characters that have a meaning in a URL. The room filter uses the args as they
are in any case.
-/
namespace PlenarioStream.Server
open Js

/-- The keys of `args` other than `sensor_network`, in the order they were set in. -/
def Args.filters (a : Args) : List (String × List String) :=
  [("nodes", a.nodes), ("features_of_interest", a.featuresOfInterest), ("sensors", a.sensors)].filterMap
    fun f => f.2.map fun values => (f.1, values)

/-- A list is converted to a text by joining it with commas. -/
def validationQuery (host : String) (a : Args) : String :=
  a.filters.foldl (fun query f => query ++ ("&" ++ f.1 ++ "=" ++ ",".intercalate f.2))
    (format ("http://" ++ host ++ "/v1/api/sensor-networks/%s/query?limit=0") [a.sensorNetwork.text])

/-- The parameters that the request should have. -/
def Args.parameters (a : Args) : List (List Char × List Char) :=
  ("limit".toList, "0".toList) :: a.filters.map fun f => (f.1.toList, (",".intercalate f.2).toList)

/-- The API reads from the URL what the args say. -/
structure Validated (host : String) (a : Args) : Prop where
  network : Url.segmentAfter "sensor-networks".toList (Url.segments (validationQuery host a).toList) =
    some a.sensorNetwork.text.toList
  parameters : (Url.parameters (validationQuery host a).toList).Perm a.parameters

/-- No text of the args has a character that ends its place in the URL, or a percent
escape. -/
structure PlainArgs (a : Args) : Prop where
  network : (∀ c ∈ a.sensorNetwork.text.toList, Url.stop c = false) ∧
    ¬ Url.Escaped a.sensorNetwork.text.toList
  filters : ∀ f ∈ a.filters, Url.PlainValue (",".intercalate f.2).toList

/-- The environment names a host, with a port perhaps. -/
def HostName (host : String) : Prop := ∀ c ∈ host.toList, Url.stop c = false ∧ c ≠ '%'

section
variable {host : String}

theorem foldl_filters (fs : List (String × List String)) (start : String) :
    (fs.foldl (fun query f => query ++ ("&" ++ f.1 ++ "=" ++ ",".intercalate f.2)) start).toList =
      start.toList ++ (fs.map fun f => (f.1.toList, (",".intercalate f.2).toList)).flatMap
        fun p => '&' :: Url.writePair p := by
  induction fs generalizing start with
  | nil => simp
  | cons f fs ih =>
      rw [List.foldl_cons, ih]
      simp [Url.writePair]

/-- The text of the URL, by its parts. -/
theorem validationQuery_toList (hhost : HostName host) (a : Args) :
    (validationQuery host a).toList = "http://".toList ++ host.toList ++
      '/' :: ("v1/api/sensor-networks/".toList ++ (a.sensorNetwork.text.toList ++
        '/' :: ("query?".toList ++ Url.writeQuery a.parameters))) := by
  have hpercent : '%' ∉ ("http://" ++ host ++ "/v1/api/sensor-networks/").toList := by
    simp only [String.toList_append, List.mem_append, not_or]
    refine ⟨⟨by decide, ?_⟩, by decide⟩
    intro hmem
    exact (hhost '%' hmem).2 rfl
  have hparts : "http://" ++ host ++ "/v1/api/sensor-networks/%s/query?limit=0" =
      ("http://" ++ host ++ "/v1/api/sensor-networks/") ++ ("%s" ++ ("/query?limit=0" ++ "")) := by
    simp [String.append_assoc]
  rw [validationQuery, foldl_filters, hparts, format_plain_append _ _ hpercent,
    format_directive_append, format_plain_append _ _ (by decide), format_nil, Args.parameters,
    Url.writeQuery_cons]
  simp [Url.writePair]

theorem validation_target (hhost : HostName host) (a : Args) :
    Url.target (validationQuery host a).toList =
      ("/v1/api/sensor-networks".toList ++ '/' :: (a.sensorNetwork.text.toList ++
        '/' :: ("query?".toList ++ Url.writeQuery a.parameters))).takeWhile (· ≠ '#') := by
  rw [validationQuery_toList hhost, Url.target_eq fun c hc => (hhost c hc).1]
  simp

theorem network_iff (hhost : HostName host) (a : Args) :
    Url.segmentAfter "sensor-networks".toList (Url.segments (validationQuery host a).toList) =
        some a.sensorNetwork.text.toList ↔
      (∀ c ∈ a.sensorNetwork.text.toList, Url.stop c = false) ∧
        ¬ Url.Escaped a.sensorNetwork.text.toList := by
  obtain ⟨rest, hrest⟩ := Url.segments_append (validation_target hhost a) (by simp)
  have hsegment : Url.segmentAfter "sensor-networks".toList
      (Url.segments (validationQuery host a).toList) =
        some (Url.decode (a.sensorNetwork.text.toList.takeWhile fun c => !Url.stop c)) := by
    rw [hrest]
    rfl
  rw [hsegment, Option.some.injEq, Url.decode_takeWhile_eq_iff]
  simp

theorem filter_cases {h : Handshake} {f : String × List String} (hf : f ∈ (parseArgs h).filters) :
    f.1 ∈ ["nodes", "features_of_interest", "sensors"] ∧ ∃ q, filterArg q = some f.2 := by
  obtain ⟨⟨name, filter⟩, hmem, hsome⟩ := List.mem_filterMap.mp hf
  obtain ⟨values, hvalues, rfl⟩ := Option.map_eq_some_iff.mp hsome
  simp only [List.mem_cons, Prod.mk.injEq, List.not_mem_nil, or_false] at hmem
  rcases hmem with ⟨rfl, rfl⟩ | ⟨rfl, rfl⟩ | ⟨rfl, rfl⟩
  · exact ⟨by simp, _, hvalues⟩
  · exact ⟨by simp, _, hvalues⟩
  · exact ⟨by simp, _, hvalues⟩

/-- The text of a filter is not empty, since an empty parameter is taken as none. -/
theorem filter_text_ne {q : Option QueryValue} {values : List String}
    (h : filterArg q = some values) : (",".intercalate values).toList ≠ [] := by
  unfold filterArg at h
  split at h
  · rename_i htruthy
    split at h
    · rename_i s
      obtain rfl := Option.some.inj h
      have hjoined : ",".intercalate (split ',' s) = s := intercalate_split ',' s
      rw [hjoined]
      simpa [truthy] using htruthy
    · obtain rfl := Option.some.inj h
      simp [String.intercalate_cons_cons]
    · cases h
  · cases h

theorem parameters_names (h : Handshake) : ∀ p ∈ (parseArgs h).parameters, Url.PlainName p.1 := by
  have hplain : ∀ name ∈ ["limit", "nodes", "features_of_interest", "sensors"],
      Url.PlainName name.toList := by
    intro name hname
    have hchars : ∀ name ∈ ["limit", "nodes", "features_of_interest", "sensors"],
        ∀ c ∈ ['&', '=', '#', '%'], c ∉ name.toList := by simp
    exact ⟨fun c hc => hchars name hname c (by grind),
      Url.not_escaped_of_not_mem (hchars name hname '%' (by simp))⟩
  intro p hp
  rcases List.mem_cons.mp hp with rfl | hp
  · exact hplain "limit" (by simp)
  · obtain ⟨f, hf, rfl⟩ := List.mem_map.mp hp
    exact hplain f.1 (List.mem_cons_of_mem _ (filter_cases hf).1)

theorem parameters_values (h : Handshake) : ∀ p ∈ (parseArgs h).parameters, p.2 ≠ [] := by
  intro p hp
  rcases List.mem_cons.mp hp with rfl | hp
  · exact List.cons_ne_nil _ _
  · obtain ⟨f, hf, rfl⟩ := List.mem_map.mp hp
    obtain ⟨q, hq⟩ := (filter_cases hf).2
    exact filter_text_ne hq

theorem parameters_iff (hhost : HostName host) (h : Handshake)
    (hnetwork : ∀ c ∈ (parseArgs h).sensorNetwork.text.toList, Url.stop c = false) :
    (Url.parameters (validationQuery host (parseArgs h)).toList).Perm (parseArgs h).parameters ↔
      ∀ f ∈ (parseArgs h).filters, Url.PlainValue (",".intercalate f.2).toList := by
  have hpath : ∀ c ∈ "/v1/api/sensor-networks/".toList ++
      (parseArgs h).sensorNetwork.text.toList ++ "/query".toList, c ≠ '?' ∧ c ≠ '#' := by
    have hfixed : ∀ c ∈ "/v1/api/sensor-networks/".toList ++ "/query".toList, c ≠ '?' ∧ c ≠ '#' := by
      simp
    intro c hc
    rcases List.mem_append.mp hc with hc | hc
    · rcases List.mem_append.mp hc with hc | hc
      · exact hfixed c (List.mem_append_left _ hc)
      · have hstop := hnetwork c hc
        simp only [Url.stop, decide_eq_false_iff_not, not_or] at hstop
        exact hstop.2
    · exact hfixed c (List.mem_append_right _ hc)
  have htarget := validation_target hhost (parseArgs h)
  have hquery : Url.query (validationQuery host (parseArgs h)).toList =
      (Url.writeQuery (parseArgs h).parameters).takeWhile (· ≠ '#') := by
    refine Url.query_append (htarget.trans ?_) hpath
    simp
  rw [Url.parameters, hquery, Url.readQuery_perm_iff (parameters_names h) (parameters_values h)]
  refine ⟨?_, ?_⟩
  · intro hall f hf
    exact hall _ (List.mem_cons_of_mem _ (List.mem_map_of_mem hf))
  · intro hall p hp
    rcases List.mem_cons.mp hp with rfl | hp
    · exact ⟨by simp, Url.not_escaped_of_not_mem (by simp)⟩
    · obtain ⟨f, hf, rfl⟩ := List.mem_map.mp hp
      exact hall f hf

end

/-- For every client: the URL says what the args say exactly when the network has none
of `/`, `?` and `#`, no filter has `&` or `#`, and none of them a percent escape. -/
theorem validation_url_iff {host : String} (hhost : HostName host) (h : Handshake) :
    Validated host (parseArgs h) ↔ PlainArgs (parseArgs h) := by
  refine ⟨?_, ?_⟩
  · intro hvalidated
    have hnetwork := (network_iff hhost (parseArgs h)).mp hvalidated.network
    exact ⟨hnetwork, (parameters_iff hhost h hnetwork.1).mp hvalidated.parameters⟩
  · intro hplain
    exact ⟨(network_iff hhost (parseArgs h)).mpr hplain.network,
      (parameters_iff hhost h hplain.network.1).mpr hplain.filters⟩

def nodesClient (nodes : String) : Handshake := { plainClient with nodes := some (.one nodes) }

theorem hostName_plenario : HostName "plenar.io" := by
  simp [HostName, Url.stop]

/-- Two plain nodes. -/
theorem validation_url_two_nodes :
    HostName "plenar.io" ∧ validationQuery "plenar.io" (parseArgs (nodesClient "00A,00B")) =
        "http://plenar.io/v1/api/sensor-networks/ArrayOfThings/query?limit=0&nodes=00A,00B" ∧
      Validated "plenar.io" (parseArgs (nodesClient "00A,00B")) := by
  have hnetwork : ∀ c ∈ "ArrayOfThings".toList, Url.stop c = false := by simp [Url.stop]
  have hescape : ¬ Url.Escaped "ArrayOfThings".toList := Url.not_escaped_of_not_mem (by simp)
  have hnodes : Url.PlainValue "00A,00B".toList := ⟨by simp, Url.not_escaped_of_not_mem (by simp)⟩
  refine ⟨hostName_plenario, rfl,
    (validation_url_iff hostName_plenario _).mpr ⟨⟨hnetwork, hescape⟩, ?_⟩⟩
  intro f hf
  obtain rfl := List.mem_singleton.mp hf
  exact hnodes

/-- A node that sets the limit of the request as well. -/
theorem validation_url_second_limit :
    validationQuery "plenar.io" (parseArgs (nodesClient "00A&limit=5")) =
        "http://plenar.io/v1/api/sensor-networks/ArrayOfThings/query?limit=0&nodes=00A&limit=5" ∧
      Url.parameters (validationQuery "plenar.io" (parseArgs (nodesClient "00A&limit=5"))).toList =
        [("limit".toList, "0".toList), ("nodes".toList, "00A".toList),
          ("limit".toList, "5".toList)] ∧
      ¬ Validated "plenar.io" (parseArgs (nodesClient "00A&limit=5")) := by
  have hparameters :
      Url.parameters (validationQuery "plenar.io" (parseArgs (nodesClient "00A&limit=5"))).toList =
        [("limit".toList, "0".toList), ("nodes".toList, "00A".toList),
          ("limit".toList, "5".toList)] := rfl
  refine ⟨rfl, hparameters, ?_⟩
  intro h
  have hlength := h.parameters.length_eq
  rw [hparameters] at hlength
  exact absurd hlength (by decide)

end PlenarioStream.Server
