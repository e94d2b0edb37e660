import SensorQuery.Model.Builder

/-!
# The sensing model

The entity types of a sensor data service: things with their locations, the sensors, the properties
observed, and the streams of observations between them. A second extension adds streams with
several observed properties, and needs the first.
-/

namespace SensorQuery.Sensing

/-- A property that every entity has. -/
def required (name : String) (valueType : ValueType) : EntityProperty := ⟨name, valueType, true⟩

/-- A property that an entity may have. -/
def optional (name : String) (valueType : ValueType) : EntityProperty := ⟨name, valueType, false⟩

/-- An entity type with the key `id`. -/
def entity (keyKind : KeyKind) (name plural : String) (properties : List EntityProperty) :
    Declaration :=
  .entityType ⟨name, plural, "id", keyKind, properties⟩

/-- A side of a link that leads to many entities. -/
def many (entityType property : String) : LinkEnd := ⟨entityType, property, true, false⟩

/-- A side of a link that leads to one entity, which must be there. -/
def one (entityType property : String) : LinkEnd := ⟨entityType, property, false, true⟩

/-- The name of the complex type for units. -/
def unitOfMeasurement : String := "UnitOfMeasurement"

/-- The name, the symbol and the definition of a unit. -/
def unitType : ComplexType :=
  .ofFields unitOfMeasurement
    [("name", .string), ("symbol", .string), ("definition", .string)] false

/-- The name of the extension with the core of the model. -/
def coreName : String := "sensing_core"

/-- The core of the sensing model, with keys of one kind. -/
def core (keyKind : KeyKind) : Declaration :=
  .extend coreName
    [.complexType unitType,
      entity keyKind "Thing" "Things"
        [required "name" .string, required "description" .string, optional "properties" .object],
      entity keyKind "Location" "Locations"
        [required "name" .string, required "description" .string, required "encodingType" .string,
          required "location" .geometry, optional "properties" .object],
      entity keyKind "HistoricalLocation" "HistoricalLocations" [required "time" .timeInstant],
      entity keyKind "Datastream" "Datastreams"
        [required "name" .string, required "description" .string,
          required "observationType" .string,
          required "unitOfMeasurement" (.complex unitOfMeasurement),
          optional "observedArea" .geometry, optional "phenomenonTime" .timeInterval,
          optional "resultTime" .timeInterval, optional "properties" .object],
      entity keyKind "Sensor" "Sensors"
        [required "name" .string, required "description" .string, required "encodingType" .string,
          required "metadata" .any, optional "properties" .object],
      entity keyKind "ObservedProperty" "ObservedProperties"
        [required "name" .string, required "definition" .string, required "description" .string,
          optional "properties" .object],
      entity keyKind "Observation" "Observations"
        [required "phenomenonTime" .timeValue, optional "resultTime" .timeInstant,
          required "result" .any, optional "resultQuality" .any,
          optional "validTime" .timeInterval, optional "parameters" .object],
      entity keyKind "FeatureOfInterest" "FeaturesOfInterest"
        [required "name" .string, required "description" .string, required "encodingType" .string,
          required "feature" .geometry, optional "properties" .object],
      .link ⟨many "Thing" "Locations", many "Location" "Things"⟩,
      .link ⟨many "Thing" "HistoricalLocations", one "HistoricalLocation" "Thing"⟩,
      .link ⟨many "Location" "HistoricalLocations", many "HistoricalLocation" "Locations"⟩,
      .link ⟨many "Thing" "Datastreams", one "Datastream" "Thing"⟩,
      .link ⟨many "Sensor" "Datastreams", one "Datastream" "Sensor"⟩,
      .link ⟨many "ObservedProperty" "Datastreams", one "Datastream" "ObservedProperty"⟩,
      .link ⟨many "Datastream" "Observations", one "Observation" "Datastream"⟩,
      .link ⟨many "FeatureOfInterest" "Observations", one "Observation" "FeatureOfInterest"⟩]

/-- The name of the extension with streams of several observed properties. -/
def multiName : String := "multi_datastream"

/-- Streams of several observed properties, with keys of one kind. -/
def multi (keyKind : KeyKind) : Declaration :=
  .extend multiName
    [entity keyKind "MultiDatastream" "MultiDatastreams"
        [required "name" .string, required "description" .string,
          required "multiObservationDataTypes" (.list .string),
          required "unitOfMeasurements" (.list (.complex unitOfMeasurement)),
          optional "observedArea" .geometry, optional "phenomenonTime" .timeInterval,
          optional "resultTime" .timeInterval, optional "properties" .object],
      .link ⟨many "Thing" "MultiDatastreams", one "MultiDatastream" "Thing"⟩,
      .link ⟨many "Sensor" "MultiDatastreams", one "MultiDatastream" "Sensor"⟩,
      .link ⟨many "ObservedProperty" "MultiDatastreams",
        { many "MultiDatastream" "ObservedProperties" with required := true }⟩,
      .link ⟨many "MultiDatastream" "Observations",
        { one "Observation" "MultiDatastream" with required := false }⟩]

/-- The model with the core alone. -/
def coreModel (keyKind : KeyKind) : Except ModelError Registry := Builder.build [core keyKind]

end SensorQuery.Sensing
