import DesignTokens.Document.LoadError
import DesignTokens.Json.Display
import DesignTokens.Kind
import DesignTokens.LogLevel
import DesignTokens.Text.Padded

/-!
# Notices

Everything that goes wrong while a document is loaded or resolved is said in a notice. A notice is kept as
its cause; `message` is its wording, and `channel` the part of the library that speaks. The log file of a
brand takes the channels that speak about documents (`concernsDocument`).
-/

namespace DesignTokens

inductive Notice where
  -- References between entries
  | cyclicReference (label : String)
  | missingReference (user : Kind) (key name : String)
  | invalidReference (user : Kind) (key name : String)
  | missingEntry (kind : Kind) (name : String)
  -- Metric expressions
  | noParameters (expecting head whole : String)
  | fewParameters (expecting head whole : String)
  | missingMetricName (expecting whole : String)
  | unrecognisedMetric (expecting name whole : String)
  | invalidMetric (expecting name : String)
  | notFinite (expecting whole : String)
  | unprocessedRest (expecting rest whole : String)
  | fewValues (expecting whole : String)
  | malformedInsets (expecting raw : String)
  -- Colors
  | colorFormat (raw : String)
  | colorParts (raw : String)
  | invalidColor (raw name : String)
  | missingColor (raw name : String)
  | colorComponent (part raw : String)
  | tooManyComponents (raw : String)
  | componentCount (raw : String)
  | mixedComponents (raw : String)
  | colorUnread (raw : String)
  -- Fonts
  | namelessFont (attributes : Json)
  | substitutedFont (expected : Json) (realized : String)
  | fontSize (raw : String)
  | fontAttributesNotObject (value : Json)
  | unknownFontAttribute (key : String)
  | fontAttributeSize (value : Json)
  | fontAttributeNotString (key : String) (value : Json)
  -- Text attributes
  | textAttributesNotObject (value : Json)
  | textAttributeNotName (key : String) (kind : Kind) (value : Json)
  | unresolvedTracking (value : Json)
  | unsupportedTextAttribute (key : String)
  | unknownTextAttribute (key : String)
  | trackingRange (tracking least greatest : Float)
  | textAttributeErrors (count : Nat)
  -- Images
  | imageUnreadable (path : String) (error : FileError)
  | imageEmpty (path : String)
  | imageUndecodable (path : String)
  | imageDamaged (path : String)
  | missingPlacement (name : String)
  -- Button styles
  | buttonStyleErrors (count : Nat)
  -- Parameters
  | missingParameter (name : String)
  | redirectionLoop (name : String)
  -- Fonts of a folder
  | fontFileUnreadable (name : String)
  -- Brands
  | nothingToLoad
  | documentUnreadable (error : FileError)
  | documentUndecodable (problems : Nat)
  | yamlFailure (file : String) (error : LoadError)
  | notInBrands (kind : Kind) (name : String)
  -- The check of a whole document
  | checkNotLoaded (path : String)
  | checkInvalid (count : Nat) (path : String)

namespace Notice

open Number (Layout)

/-- A word or a text in double quotes. -/
def inQuotes (s : String) : String := "\"" ++ s ++ "\""

/-- The wording of a notice. -/
def message : Notice → String
  | .cyclicReference label => "Cyclic reference detected while resolving " ++ label
  | .missingReference user key name =>
    user.name ++ " couldn't find " ++ key ++ " entry named " ++ inQuotes name
  | .invalidReference user key name =>
    user.name ++ " wants to use " ++ key ++ " entry named " ++ inQuotes name ++ ", which is not valid"
  | .missingEntry .customParameters name => "No custom parameter entry named " ++ inQuotes name
  | .missingEntry kind name => "No " ++ kind.name ++ " entry named " ++ inQuotes name
  | .noParameters expecting head whole =>
    "While " ++ expecting ++ ", found no parameters to " ++ inQuotes head ++ " in " ++ inQuotes whole
  | .fewParameters expecting head whole =>
    "While " ++ expecting ++ ", found insufficient parameters to " ++ inQuotes head ++ " in " ++ inQuotes whole
  | .missingMetricName expecting whole =>
    "While " ++ expecting ++ ", encountered missing name in " ++ inQuotes whole
  | .unrecognisedMetric expecting name whole =>
    "While " ++ expecting ++ ", could not recognise value or expression " ++ inQuotes name ++ " within " ++
      inQuotes whole
  | .invalidMetric expecting name =>
    "While " ++ expecting ++ ", tried to use invalid metric entry " ++ inQuotes name
  | .notFinite expecting whole =>
    "While " ++ expecting ++ ", " ++ inQuotes whole ++ " does not evaluate to a finite number"
  | .unprocessedRest expecting rest whole =>
    "While " ++ expecting ++ ", did not process remaining expression " ++ inQuotes rest ++
      " out of entire " ++ inQuotes whole
  | .fewValues expecting whole =>
    "While " ++ expecting ++ ", could not extract sufficient values out of " ++ inQuotes whole
  | .malformedInsets expecting raw =>
    "Could not parse " ++ expecting ++ " from " ++ inQuotes raw ++ " (format: \"top/left/bottom/right\")"
  | .colorFormat raw => "Unrecognised format in colour " ++ inQuotes raw
  | .colorParts raw => "Inconsistent number of parts in colour " ++ inQuotes raw
  | .invalidColor raw name =>
    "Colour " ++ inQuotes raw ++ " refers to colour " ++ inQuotes name ++ ", which is not valid"
  | .missingColor raw name =>
    "Colour " ++ inQuotes raw ++ " could not find referenced colour " ++ inQuotes name
  | .colorComponent part raw => "Invalid component " ++ inQuotes part ++ " in colour " ++ inQuotes raw
  | .tooManyComponents raw => "Too many components in colour " ++ inQuotes raw
  | .componentCount raw => "Expect three or four components in colour " ++ inQuotes raw
  | .mixedComponents raw => "Inconsistent component types in colour " ++ inQuotes raw
  | .colorUnread raw => "Error parsing colour " ++ inQuotes raw
  | .namelessFont attributes => "Font descriptor " ++ attributes.display ++ " names no family or font"
  | .substitutedFont expected realized =>
    "Font " ++ inQuotes expected.display ++ " was requested but " ++ inQuotes realized ++ " was realized"
  | .fontSize raw => "Font could not resolve size " ++ inQuotes raw
  | .fontAttributesNotObject value => "Font attributes must be an object, got " ++ value.quoted
  | .unknownFontAttribute key => "Unrecognised font attribute key " ++ inQuotes key
  | .fontAttributeSize value => "Font attribute size " ++ inQuotes value.display ++ " is not a metric"
  | .fontAttributeNotString key value =>
    "Font attribute " ++ inQuotes key ++ " must be a string, got " ++ value.quoted
  | .textAttributesNotObject value => "Text attributes must be an object, got " ++ value.quoted
  | .textAttributeNotName key kind value =>
    "Text attribute " ++ inQuotes key ++ " must name a " ++ kind.name ++ " entry, got " ++ value.quoted
  | .unresolvedTracking value => "Text attributes could not resolve tracking " ++ inQuotes value.display
  | .unsupportedTextAttribute key => "Text attribute " ++ inQuotes key ++ " is not supported yet"
  | .unknownTextAttribute key => "Unrecognised text attribute key " ++ inQuotes key
  | .trackingRange tracking least greatest =>
    "Tracking " ++ Layout.notice.text tracking ++ " is outside [" ++ Layout.notice.text least ++ ", " ++
      Layout.notice.text greatest ++ "]"
  | .textAttributeErrors count => "Found " ++ toString count ++ " error(s) resolving text attributes"
  | .imageUnreadable path error => "Could not load image data from " ++ inQuotes path ++ ": " ++ error.name
  | .imageEmpty path => "Image file " ++ inQuotes path ++ " is empty"
  | .imageUndecodable path =>
    "Could not create image with data from " ++ inQuotes path ++ ": UnidentifiedImageError"
  | .imageDamaged path => "Could not create image with data from " ++ inQuotes path ++ ": OSError"
  | .missingPlacement name => "Can't find placement " ++ inQuotes name ++ " that image depends on"
  | .buttonStyleErrors count => "Found " ++ toString count ++ " error(s) resolving button style"
  | .missingParameter name => "Could not find custom parameter entry " ++ inQuotes name
  | .redirectionLoop name => "Custom parameter redirection loops back to " ++ inQuotes name
  | .fontFileUnreadable name => "Could not read font " ++ name ++ ": OSError"
  | .nothingToLoad => "Brand has no storage and no byte source to load from"
  | .documentUnreadable error => "Could not read brand document: " ++ error.name
  | .documentUndecodable problems =>
    "Brand document failed to decode (" ++ toString problems ++ " error(s)):\n" ++
      LoadError.name (.undecodable [])
  | .yamlFailure file error => "Could not load brand document " ++ file ++ ": " ++ error.name
  | .notInBrands kind name => "No " ++ kind.name ++ " named " ++ inQuotes name ++ " in brand or its fallbacks"
  | .checkNotLoaded path => "Could not load " ++ path
  | .checkInvalid count path => toString count ++ " invalid entries in " ++ path

/-- The part of the library that speaks. -/
def channel : Notice → String
  | .cyclicReference .. => "models.cache"
  | .missingReference .. | .invalidReference .. | .missingEntry .. => "models.document"
  | .noParameters .. | .fewParameters .. | .missingMetricName .. | .unrecognisedMetric ..
  | .invalidMetric .. | .notFinite .. | .unprocessedRest .. | .fewValues .. | .malformedInsets .. =>
    "resolvers.metric"
  | .colorFormat .. | .colorParts .. | .invalidColor .. | .missingColor .. | .colorComponent ..
  | .tooManyComponents .. | .componentCount .. | .mixedComponents ..
  | .colorUnread .. => "resolvers.color"
  | .namelessFont .. | .substitutedFont .. | .fontSize .. | .fontAttributesNotObject ..
  | .unknownFontAttribute .. | .fontAttributeSize .. | .fontAttributeNotString .. => "resolvers.font"
  | .textAttributesNotObject .. | .textAttributeNotName .. | .unresolvedTracking ..
  | .unsupportedTextAttribute .. | .unknownTextAttribute .. | .trackingRange ..
  | .textAttributeErrors .. => "resolvers.text_attributes"
  | .imageUnreadable .. | .imageEmpty .. | .imageUndecodable .. | .imageDamaged .. | .missingPlacement .. =>
    "resolvers.image"
  | .buttonStyleErrors .. => "resolvers.button_style"
  | .missingParameter .. | .redirectionLoop .. => "resolvers.parameters"
  | .fontFileUnreadable .. => "utils.font_catalog"
  | .nothingToLoad | .documentUnreadable .. | .documentUndecodable .. | .yamlFailure ..
  | .notInBrands .. => "resolvers.brand"
  | .checkNotLoaded .. | .checkInvalid .. => "check_brand"

/-- How serious a notice is. Only a check that finds no document to check is an error. -/
def level : Notice → LogLevel
  | .checkNotLoaded .. => .error
  | _ => .warning

/-- Whether a notice is about a document, and not about the fonts or the check as a whole. -/
def concernsDocument : Notice → Bool
  | .fontFileUnreadable .. | .checkNotLoaded .. | .checkInvalid .. => false
  | _ => true

/-- The line of a notice in a log, with the time of day in front. -/
def logLine (n : Notice) (time : String) : String :=
  time ++ "  " ++ Text.padEnd 8 n.level.name ++ "  " ++ n.channel ++ "  " ++ n.message ++ "\n"

end Notice

end DesignTokens
