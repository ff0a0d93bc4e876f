/-!
# Names of character categories

The names by which a pattern may refer to a category of characters: general categories,
scripts and properties, each with its abbreviation. Names are compared without regard to
case, blanks, hyphens, underscores and a leading `is`.
-/

namespace SchemaAtlas.Pattern

/-- General categories. -/
def generalCategories : List String :=
  ("c other cc control cntrl cf format cn unassigned co privateuse l letter lc casedletter " ++
    "ll lowercaseletter lm modifierletter lo otherletter lt titlecaseletter lu uppercaseletter " ++
    "m mark combiningmark mc spacingmark me enclosingmark mn nonspacingmark n number " ++
    "nd decimalnumber digit nl letternumber no othernumber p punctuation punct " ++
    "pc connectorpunctuation pd dashpunctuation pe closepunctuation pf finalpunctuation " ++
    "pi initialpunctuation po otherpunctuation ps openpunctuation s symbol sc currencysymbol " ++
    "sk modifiersymbol sm mathsymbol so othersymbol z separator zl lineseparator " ++
    "zp paragraphseparator zs spaceseparator any assigned ascii").splitOn " "

def scripts : List String :=
  ("adlm adlam aghb caucasianalbanian ahom arab arabic armi imperialaramaic armn armenian avst " ++
    "avestan bali balinese bamu bamum bass bassavah batk batak beng bengali bhks bhaiksuki bopo " ++
    "bopomofo brah brahmi brai braille bugi buginese buhd buhid cakm chakma cans " ++
    "canadianaboriginal cari carian cham cher cherokee chrs chorasmian copt coptic qaac cpmn " ++
    "cyprominoan cprt cypriot cyrl cyrillic deva devanagari diak divesakuru dogr dogra dsrt " ++
    "deseret dupl duployan egyp egyptianhieroglyphs elba elbasan elym elymaic ethi ethiopic gara " ++
    "garay geor georgian glag glagolitic gong gunjalagondi gonm masaramgondi goth gothic gran " ++
    "grantha grek greek gujr gujarati gukh gurungkhema guru gurmukhi hang hangul hani han hano " ++
    "hanunoo hatr hatran hebr hebrew hira hiragana hluw anatolianhieroglyphs hmng pahawhhmong " ++
    "hmnp nyiakengpuachuehmong hung oldhungarian ital olditalic java javanese kali kayahli kana " ++
    "katakana kawi khar kharoshthi khmr khmer khoj khojki kits khitansmallscript knda kannada " ++
    "krai kiratrai kthi kaithi lana taitham laoo lao latn latin lepc lepcha limb limbu lina " ++
    "lineara linb linearb lisu lyci lycian lydi lydian mahj mahajani maka makasar mand mandaic " ++
    "mani manichaean marc marchen medf medefaidrin mend mendekikakui merc meroiticcursive mero " ++
    "meroitichieroglyphs mlym malayalam modi mong mongolian mroo mro mtei meeteimayek mult " ++
    "multani mymr myanmar nagm nagmundari nand nandinagari narb oldnortharabian nbat nabataean " ++
    "newa nkoo nko nshu nushu ogam ogham olck olchiki onao olonal orkh oldturkic orya oriya osge " ++
    "osage osma osmanya ougr olduyghur palm palmyrene pauc paucinhau perm oldpermic phag phagspa " ++
    "phli inscriptionalpahlavi phlp psalterpahlavi phnx phoenician plrd miao prti " ++
    "inscriptionalparthian rjng rejang rohg hanifirohingya runr runic samr samaritan sarb " ++
    "oldsoutharabian saur saurashtra sgnw signwriting shaw shavian shrd sharada sidd siddham " ++
    "sind khudawadi sinh sinhala sogd sogdian sogo oldsogdian sora sorasompeng soyo soyombo sund " ++
    "sundanese sunu sunuwar sylo sylotinagri syrc syriac tagb tagbanwa takr takri tale taile " ++
    "talu newtailue taml tamil tang tangut tavt taiviet telu telugu tfng tifinagh tglg tagalog " ++
    "thaa thaana thai tibt tibetan tirh tirhuta tnsa tangsa todr todhri toto tutg tulutigalari " ++
    "ugar ugaritic vaii vai vith vithkuqi wara warangciti wcho wancho xpeo oldpersian xsux " ++
    "cuneiform yezi yezidi yiii yi zanb zanabazarsquare zinh inherited qaai zyyy common"
    ).splitOn " "

/-- Properties that hold of a character or not. -/
def properties : List String :=
  ("alphabetic alpha asciihexdigit ahex bidicontrol bidic cased caseignorable ci " ++
    "changeswhencasefolded cwcf changeswhencasemapped cwcm changeswhenlowercased cwl " ++
    "changeswhentitlecased cwt changeswhenuppercased cwu dash defaultignorablecodepoint di " ++
    "deprecated dep diacritic dia emoji emojicomponent ecomp emojimodifier emod " ++
    "emojimodifierbase ebase emojipresentation epres extendedpictographic extpict extender ext " ++
    "graphemebase grbase graphemeextend grext graphemelink grlink hexdigit hex hyphen idcontinue " ++
    "idc ideographic ideo idstart ids idsbinaryoperator idsb idstrinaryoperator idst joincontrol " ++
    "joinc logicalorderexception loe lowercase lower math noncharactercodepoint nchar " ++
    "otheralphabetic oalpha otherdefaultignorablecodepoint odi othergraphemeextend ogrext " ++
    "otheridcontinue oidc otheridstart oids otherlowercase olower othermath omath otheruppercase " ++
    "oupper patternsyntax patsyn patternwhitespace patws prependedconcatenationmark pcm " ++
    "quotationmark qmark radical regionalindicator ri sentenceterminal sterm softdotted sd " ++
    "terminalpunctuation term unifiedideograph uideo uppercase upper variationselector vs " ++
    "whitespace wspace space xidcontinue xidc xidstart xids").splitOn " "

/-- Classes of ASCII characters, written between colons. -/
def asciiClasses : List String :=
  ["alnum", "alpha", "ascii", "blank", "cntrl", "digit", "graph", "lower", "print", "punct",
    "space", "upper", "word", "xdigit"]

/-- The form in which names are compared. -/
def normalName (name : List Char) : String :=
  let kept := (name.filter fun c =>
    c.toNat < 128 && !([' ', '_', '-', '\t', '\n', '\r', '\x0b', '\x0c'].contains c)).map Char.toLower
  let startsWithIs := match name with
    | i :: s :: _ => i.toLower = 'i' && s.toLower = 's'
    | _ => false
  let bare := if startsWithIs then kept.drop 2 else kept
  if startsWithIs && bare = ['c'] then "isc" else String.ofList bare

/-- Whether a name alone refers to a category. -/
def isCategory (name : List Char) : Bool :=
  let n := normalName name
  properties.contains n || generalCategories.contains n || scripts.contains n

/-- Whether a property and a value refer to a category. -/
def isCategoryValue (property value : List Char) : Bool :=
  let p := normalName property
  let v := normalName value
  if p = "gc" || p = "generalcategory" then generalCategories.contains v
  else if ["sc", "script", "scx", "scriptextensions"].contains p then scripts.contains v
  else false

/-- Splits a name before and after the first occurrence of a word. -/
def splitAround (word : List Char) : List Char → Option (List Char × List Char)
  | [] => none
  | c :: rest =>
    if word.isPrefixOf (c :: rest) then some ([], (c :: rest).drop word.length)
    else (splitAround word rest).map fun (before, after) => (c :: before, after)

/-- Whether what stands between the braces of a category is known. -/
def isCategoryText (text : List Char) : Bool :=
  match (splitAround "!=".toList text).or
      ((splitAround [':'] text).or (splitAround ['='] text)) with
  | some (property, value) => isCategoryValue property value
  | none => isCategory text

end SchemaAtlas.Pattern
