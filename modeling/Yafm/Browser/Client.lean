import Yafm.Browser.Form
import Yafm.ChildPath

set_option autoImplicit false

namespace Yafm

open Text

-- A location on the site as the browser requests it: nothing in it is left to escape or to resolve.
def navigate (location : String) (headers : HeaderMap) : Request :=
  match splitOnce '?' location with
  | some (path, query) => ⟨.get, path, some query, headers⟩
  | none => ⟨.get, location, none, headers⟩

namespace Client

-- The generated functions leave out what has no value.
def queryString (query : List (String × Option String)) : String :=
  searchParams (query.filterMap fun field => (field.2.filter (· ≠ "")).map fun value => (field.1, value))

def generated (method : Method) (path : String) (query : List (String × Option String))
    (headers : HeaderMap) : Request :=
  let queryString := queryString query
  ⟨method, path, if queryString = "" then none else some queryString,
    ("accept", asBytes "application/json") :: headers⟩

def fetchDirectory (relativePath : String) (headers : HeaderMap) : Request :=
  generated .get directoryPath (if relativePath = "" then [] else [("p", some relativePath)]) headers

def deleteFile (currentPath fileName : String) (headers : HeaderMap) : Request :=
  generated .delete filePath [("p", some (toChildPath currentPath fileName))] headers

def buildDownloadHref (currentPath fileName : String) : String :=
  downloadPath ++ "?" ++ searchParams [("p", toChildPath currentPath fileName)]

-- Where the page sends a browser whose session was rejected.
def loginHref (location : String) : String := loginPath ++ "?returnTo=" ++ encodeURIComponent location

end Client

-- `URLSearchParams.set`: the first field of the name gets the value, and the others go.
def setField (name value : String) : List (String × String) → List (String × String)
  | [] => [(name, value)]
  | field :: rest =>
    if field.1 = name then (name, value) :: rest.filter (·.1 ≠ name) else field :: setField name value rest

def getField (name : String) (fields : List (String × String)) : Option String :=
  (fields.find? fun field => field.1 = name).map Prod.snd

def searchText (fields : List (String × String)) : String :=
  if fields = [] then "" else "?" ++ searchParams fields

def pageFields (fields : List (String × String)) (path : String) : List (String × String) :=
  if path = "" then fields.filter (·.1 ≠ "p") else setField "p" path fields

def searchFields (platform : Platform) (search : String) : List (String × String) :=
  formUrlencodedParse platform ((stripPrefix "?" search).getD search)

def updateSearch (platform : Platform) (search path : String) : String :=
  searchText (pageFields (searchFields platform search) path)

def readPathFromUrl (platform : Platform) (search : String) : String :=
  (getField "p" (searchFields platform search)).getD ""

theorem filter_setField (name value : String) (fields : List (String × String)) :
    ((setField name value fields).filter fun field => field.1 = name) = [(name, value)] := by
  induction fields with
  | nil => simp [setField]
  | cons field rest ih =>
    unfold setField
    split
    · simp [List.filter_filter]
    next other => rw [List.filter_cons_of_neg (by simpa using other), ih]

theorem filter_setField_other (name value : String) (fields : List (String × String)) :
    ((setField name value fields).filter fun field => field.1 ≠ name) = fields.filter fun field =>
      field.1 ≠ name := by
  induction fields with
  | nil => simp [setField]
  | cons field rest ih =>
    unfold setField
    split
    next same => simp [List.filter_filter, same]
    next other =>
      rw [List.filter_cons_of_pos (by simpa using other), List.filter_cons_of_pos (by simpa using other), ih]

theorem filter_pageFields_other (path : String) (fields : List (String × String)) :
    ((pageFields fields path).filter fun field => field.1 ≠ "p") = fields.filter fun field =>
      field.1 ≠ "p" := by
  unfold pageFields
  split
  · simp [List.filter_filter]
  · exact filter_setField_other "p" path fields

theorem filter_pageFields (path : String) (fields : List (String × String)) :
    ((pageFields fields path).filter fun field => field.1 = "p") = if path = "" then []
      else [("p", path)] := by
  unfold pageFields
  split
  · simp [List.filter_filter]
  · exact filter_setField "p" path fields

theorem getField_of_filter {name : String} {fields : List (String × String)} :
    getField name fields = ((fields.filter fun field => field.1 = name).head?).map Prod.snd := by
  rw [getField, List.head?_filter]

section

variable {platform : Platform} (lossy : ∀ text, platform.lossy (asBytes text) = text)
include lossy

theorem searchFields_searchText (fields : List (String × String)) :
    searchFields platform (searchText fields) = fields := by
  unfold searchText searchFields
  split
  next none =>
    subst none
    rfl
  · rw [stripPrefix_append, Option.getD_some, formUrlencodedParse_searchParams lossy]

theorem pathQuery_searchParams {request : Request} {fields : List (String × String)}
    (query : request.query.getD "" = searchParams fields) :
    pathQuery platform request = (queryField fields "p").map fun p => p.getD "" := by
  rw [pathQuery, queryFields, query, formUrlencodedParse_searchParams lossy]

omit lossy in
theorem generated_query (method : Method) (path : String) (query : List (String × Option String))
    (headers : HeaderMap) :
    (Client.generated method path query headers).query.getD "" = Client.queryString query := by
  unfold Client.generated
  dsimp only
  split
  next empty => exact empty.symm
  · rfl

-- An empty value is not sent, and reads as one again.
theorem pathQuery_generated (method : Method) (path value : String) (headers : HeaderMap) :
    pathQuery platform (Client.generated method path [("p", some value)] headers) = some value := by
  rw [pathQuery_searchParams lossy (generated_query method path _ headers)]
  by_cases empty : value = ""
  · simp [empty, queryField, Option.filter]
  · simp [empty, queryField, Option.filter]

theorem pathQuery_fetchDirectory (path : String) (headers : HeaderMap) :
    pathQuery platform (Client.fetchDirectory path headers) = some path := by
  unfold Client.fetchDirectory
  split
  next root =>
    rw [pathQuery_searchParams lossy (generated_query _ _ _ headers), root]
    rfl
  · exact pathQuery_generated lossy .get directoryPath path headers

omit lossy in
theorem navigate_query {path : String} (plain : '?' ∉ path.toList) (query : String) (headers : HeaderMap) :
    navigate (path ++ "?" ++ query) headers = ⟨.get, path, some query, headers⟩ := by
  have cut : splitOnce '?' (path ++ "?" ++ query) = some (path, query) := splitOnce_eq_some.mpr ⟨rfl, plain⟩
  rw [navigate, cut]

-- Whatever texts the path and the name are. The page leaves one field `p` in its URL, or none for the
-- root, and every other field where it was.
theorem requests_queried (path name search : String) (headers : HeaderMap) :
    pathQuery platform (Client.fetchDirectory path headers) = some path ∧
      pathQuery platform (Client.deleteFile path name headers) = some (toChildPath path name) ∧
      (navigate (Client.buildDownloadHref path name) headers).path = downloadPath ∧
      pathQuery platform (navigate (Client.buildDownloadHref path name) headers) =
        some (toChildPath path name) ∧
      readPathFromUrl platform (updateSearch platform search path) = path ∧
      ((searchFields platform (updateSearch platform search path)).filter fun field => field.1 = "p") =
        (if path = "" then [] else [("p", path)]) ∧
      ((searchFields platform (updateSearch platform search path)).filter fun field => field.1 ≠ "p") =
        (searchFields platform search).filter fun field => field.1 ≠ "p" := by
  have downloads : navigate (Client.buildDownloadHref path name) headers =
      ⟨.get, downloadPath, some (searchParams [("p", toChildPath path name)]), headers⟩ :=
    navigate_query (by decide) _ headers
  have kept : searchFields platform (updateSearch platform search path) =
      pageFields (searchFields platform search) path := by rw [updateSearch, searchFields_searchText lossy]
  refine ⟨pathQuery_fetchDirectory lossy path headers,
    pathQuery_generated lossy _ _ _ headers, ?_, ?_, ?_, ?_, ?_⟩
  · rw [downloads]
  · rw [downloads, pathQuery_searchParams lossy rfl]
    rfl
  · rw [readPathFromUrl, kept, getField_of_filter, filter_pageFields]
    split
    next root => exact root.symm
    · rfl
  · rw [kept, filter_pageFields]
  · rw [kept, filter_pageFields_other]

end

def textPlatform : Platform where
  lowercase := id
  rfc3339 _ := ""
  parseRfc2822 _ := none
  lossy bytes := (fromUtf8 bytes).getD "\uFFFD"

theorem textPlatform_lossy (text : String) : textPlatform.lossy (asBytes text) = text := by
  have read : fromUtf8 (asBytes text) = some text := fromUtf8_asBytes text
  simp [textPlatform, read]

theorem requests_queried_text :
    pathQuery textPlatform (Client.deleteFile "a b" "c&d?" []) = some "a b/c&d?" ∧
      readPathFromUrl textPlatform (updateSearch textPlatform "?p=old&view=1" "é=+") = "é=+" := by
  have named := requests_queried textPlatform_lossy "a b" "c&d?" "" []
  have kept := requests_queried textPlatform_lossy "é=+" "" "?p=old&view=1" []
  refine ⟨named.2.1.trans ?_, kept.2.2.2.2.1⟩
  decide

end Yafm
