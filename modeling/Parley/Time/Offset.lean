import Parley.Assoc

/-!
Where the clocks of time zones stand at both ends of the calendar, the years 1 and 9999, as far as
they point to a time outside it.
-/
namespace Parley

/-- When the year 1 begins in universal time, in microseconds since 1970. -/
def calendarStart : Int := -62135596800000000

/-- When the year 9999 ends. -/
def calendarEnd : Int := 253402300800000000

/-- The zones whose clocks are behind universal time when the year 1 begins, and by how many
seconds. -/
def secondsBehind : List (String × Nat) := [
  ("Africa/Abidjan", 968), ("Africa/Accra", 52), ("Africa/Bamako", 1920), ("Africa/Banjul", 3996),
  ("Africa/Bissau", 3740), ("Africa/Casablanca", 1820), ("Africa/Ceuta", 1276),
  ("Africa/Conakry", 3292), ("Africa/Dakar", 4184), ("Africa/El_Aaiun", 3168),
  ("Africa/Freetown", 3180), ("Africa/Monrovia", 2588), ("Africa/Nouakchott", 3828),
  ("Africa/Ouagadougou", 364), ("Africa/Timbuktu", 1920), ("America/Anguilla", 15136),
  ("America/Antigua", 14832), ("America/Araguaina", 11568),
  ("America/Argentina/Buenos_Aires", 14028), ("America/Argentina/Catamarca", 15788),
  ("America/Argentina/Cordoba", 15408), ("America/Argentina/Jujuy", 15672),
  ("America/Argentina/La_Rioja", 16044), ("America/Argentina/Mendoza", 16516),
  ("America/Argentina/Rio_Gallegos", 16612), ("America/Argentina/Salta", 15700),
  ("America/Argentina/San_Juan", 16444), ("America/Argentina/San_Luis", 15924),
  ("America/Argentina/Tucuman", 15652), ("America/Argentina/Ushuaia", 16392),
  ("America/Aruba", 16824), ("America/Asuncion", 13840), ("America/Atikokan", 21988),
  ("America/Bahia", 9244), ("America/Bahia_Banderas", 25260), ("America/Barbados", 14309),
  ("America/Belem", 11636), ("America/Belize", 21168), ("America/Blanc-Sablon", 13708),
  ("America/Boa_Vista", 14560), ("America/Bogota", 17776), ("America/Boise", 27889),
  ("America/Campo_Grande", 13108), ("America/Cancun", 20824), ("America/Caracas", 16064),
  ("America/Cayenne", 12560), ("America/Cayman", 19532), ("America/Chicago", 21036),
  ("America/Chihuahua", 25460), ("America/Ciudad_Juarez", 25556), ("America/Coral_Harbour", 21988),
  ("America/Costa_Rica", 20173), ("America/Coyhaique", 17296), ("America/Creston", 27964),
  ("America/Cuiaba", 13460), ("America/Curacao", 16547), ("America/Danmarkshavn", 4480),
  ("America/Dawson", 33460), ("America/Dawson_Creek", 28856), ("America/Denver", 25196),
  ("America/Detroit", 19931), ("America/Dominica", 14736), ("America/Edmonton", 27232),
  ("America/Eirunepe", 16768), ("America/El_Salvador", 21408), ("America/Ensenada", 28084),
  ("America/Fort_Nelson", 29447), ("America/Fortaleza", 9240), ("America/Glace_Bay", 14388),
  ("America/Goose_Bay", 14500), ("America/Grand_Turk", 17072), ("America/Grenada", 14820),
  ("America/Guadeloupe", 14768), ("America/Guatemala", 21724), ("America/Guayaquil", 19160),
  ("America/Guyana", 13959), ("America/Halifax", 15264), ("America/Havana", 19768),
  ("America/Hermosillo", 26632), ("America/Indiana/Indianapolis", 20678),
  ("America/Indiana/Knox", 20790), ("America/Indiana/Marengo", 20723),
  ("America/Indiana/Petersburg", 20947), ("America/Indiana/Tell_City", 20823),
  ("America/Indiana/Vevay", 20416), ("America/Indiana/Vincennes", 21007),
  ("America/Indiana/Winamac", 20785), ("America/Jamaica", 18430),
  ("America/Kentucky/Louisville", 20582), ("America/Kentucky/Monticello", 20364),
  ("America/Kralendijk", 16547), ("America/La_Paz", 16356), ("America/Lima", 18492),
  ("America/Los_Angeles", 28378), ("America/Lower_Princes", 16547), ("America/Maceio", 8572),
  ("America/Managua", 20708), ("America/Manaus", 14404), ("America/Marigot", 14764),
  ("America/Martinique", 14660), ("America/Matamoros", 23400), ("America/Mazatlan", 25540),
  ("America/Menominee", 21027), ("America/Merida", 21508), ("America/Mexico_City", 23796),
  ("America/Miquelon", 13480), ("America/Moncton", 15548), ("America/Monterrey", 24076),
  ("America/Montevideo", 13491), ("America/Montreal", 19052), ("America/Montserrat", 14932),
  ("America/Nassau", 18570), ("America/New_York", 17762), ("America/Nipigon", 19052),
  ("America/Noronha", 7780), ("America/North_Dakota/Beulah", 24427),
  ("America/North_Dakota/Center", 24312), ("America/North_Dakota/New_Salem", 24339),
  ("America/Nuuk", 12416), ("America/Ojinaga", 25060), ("America/Panama", 19088),
  ("America/Paramaribo", 13240), ("America/Phoenix", 26898), ("America/Port-au-Prince", 17360),
  ("America/Port_of_Spain", 14764), ("America/Porto_Acre", 16272), ("America/Porto_Velho", 15336),
  ("America/Puerto_Rico", 15865), ("America/Punta_Arenas", 17020), ("America/Rainy_River", 23316),
  ("America/Recife", 8376), ("America/Regina", 25116), ("America/Rio_Branco", 16272),
  ("America/Santa_Isabel", 28084), ("America/Santarem", 13128), ("America/Santiago", 16965),
  ("America/Santo_Domingo", 16776), ("America/Sao_Paulo", 11188), ("America/Scoresbysund", 5272),
  ("America/Shiprock", 25196), ("America/St_Barthelemy", 14764), ("America/St_Johns", 12652),
  ("America/St_Kitts", 15052), ("America/St_Lucia", 14640), ("America/St_Thomas", 15584),
  ("America/St_Vincent", 14696), ("America/Swift_Current", 25880), ("America/Tegucigalpa", 20932),
  ("America/Thule", 16508), ("America/Thunder_Bay", 19052), ("America/Tijuana", 28084),
  ("America/Toronto", 19052), ("America/Tortola", 15508), ("America/Vancouver", 29548),
  ("America/Virgin", 15584), ("America/Whitehorse", 32412), ("America/Winnipeg", 23316),
  ("America/Yellowknife", 27232), ("Asia/Manila", 57368), ("Atlantic/Azores", 6160),
  ("Atlantic/Bermuda", 15558), ("Atlantic/Canary", 3696), ("Atlantic/Cape_Verde", 5644),
  ("Atlantic/Faroe", 1624), ("Atlantic/Madeira", 4056), ("Atlantic/Reykjavik", 5280),
  ("Atlantic/South_Georgia", 8768), ("Atlantic/St_Helena", 1368), ("Atlantic/Stanley", 13884),
  ("CST6CDT", 21600), ("EST", 18000), ("EST5EDT", 18000), ("Etc/GMT+1", 3600),
  ("Etc/GMT+10", 36000), ("Etc/GMT+11", 39600), ("Etc/GMT+12", 43200), ("Etc/GMT+2", 7200),
  ("Etc/GMT+3", 10800), ("Etc/GMT+4", 14400), ("Etc/GMT+5", 18000), ("Etc/GMT+6", 21600),
  ("Etc/GMT+7", 25200), ("Etc/GMT+8", 28800), ("Etc/GMT+9", 32400), ("Europe/Belfast", 75),
  ("Europe/Dublin", 1521), ("Europe/Gibraltar", 1284), ("Europe/Guernsey", 609),
  ("Europe/Isle_of_Man", 1075), ("Europe/Jersey", 506), ("Europe/Lisbon", 2205),
  ("Europe/London", 75), ("Europe/Madrid", 884), ("HST", 36000), ("MST", 25200), ("MST7MDT", 25200),
  ("PST8PDT", 28800), ("Pacific/Chuuk", 49972), ("Pacific/Easter", 26248),
  ("Pacific/Fakaofo", 41096), ("Pacific/Galapagos", 21504), ("Pacific/Gambier", 32388),
  ("Pacific/Guam", 51660), ("Pacific/Honolulu", 37886), ("Pacific/Johnston", 37886),
  ("Pacific/Kiritimati", 37760), ("Pacific/Kosrae", 47284), ("Pacific/Marquesas", 33480),
  ("Pacific/Midway", 42568), ("Pacific/Niue", 40780), ("Pacific/Palau", 54124),
  ("Pacific/Pitcairn", 31220), ("Pacific/Pohnpei", 48428), ("Pacific/Saipan", 51420),
  ("Pacific/Tahiti", 35896), ("Pacific/Yap", 49972)]

/-- The zones whose clocks are ahead of universal time when the year 9999 ends, and by how many
seconds. -/
def secondsAhead : List (String × Nat) := [
  ("Africa/Addis_Ababa", 10800), ("Africa/Algiers", 3600), ("Africa/Asmara", 10800),
  ("Africa/Bangui", 3600), ("Africa/Blantyre", 7200), ("Africa/Brazzaville", 3600),
  ("Africa/Bujumbura", 7200), ("Africa/Cairo", 7200), ("Africa/Casablanca", 3600),
  ("Africa/Ceuta", 3600), ("Africa/Dar_es_Salaam", 10800), ("Africa/Djibouti", 10800),
  ("Africa/Douala", 3600), ("Africa/El_Aaiun", 3600), ("Africa/Gaborone", 7200),
  ("Africa/Harare", 7200), ("Africa/Johannesburg", 7200), ("Africa/Juba", 7200),
  ("Africa/Kampala", 10800), ("Africa/Khartoum", 7200), ("Africa/Kigali", 7200),
  ("Africa/Kinshasa", 3600), ("Africa/Lagos", 3600), ("Africa/Libreville", 3600),
  ("Africa/Luanda", 3600), ("Africa/Lubumbashi", 7200), ("Africa/Lusaka", 7200),
  ("Africa/Malabo", 3600), ("Africa/Maputo", 7200), ("Africa/Maseru", 7200),
  ("Africa/Mbabane", 7200), ("Africa/Mogadishu", 10800), ("Africa/Nairobi", 10800),
  ("Africa/Ndjamena", 3600), ("Africa/Niamey", 3600), ("Africa/Porto-Novo", 3600),
  ("Africa/Tripoli", 7200), ("Africa/Tunis", 3600), ("Africa/Windhoek", 7200),
  ("Antarctica/Casey", 28800), ("Antarctica/Davis", 25200), ("Antarctica/DumontDUrville", 36000),
  ("Antarctica/Macquarie", 39600), ("Antarctica/Mawson", 18000), ("Antarctica/McMurdo", 46800),
  ("Antarctica/Syowa", 10800), ("Antarctica/Vostok", 18000), ("Arctic/Longyearbyen", 3600),
  ("Asia/Aden", 10800), ("Asia/Almaty", 18000), ("Asia/Amman", 10800), ("Asia/Anadyr", 43200),
  ("Asia/Aqtau", 18000), ("Asia/Aqtobe", 18000), ("Asia/Ashgabat", 18000), ("Asia/Atyrau", 18000),
  ("Asia/Baghdad", 10800), ("Asia/Bahrain", 10800), ("Asia/Baku", 14400), ("Asia/Bangkok", 25200),
  ("Asia/Barnaul", 25200), ("Asia/Beirut", 7200), ("Asia/Bishkek", 21600), ("Asia/Brunei", 28800),
  ("Asia/Chita", 32400), ("Asia/Choibalsan", 28800), ("Asia/Chongqing", 28800),
  ("Asia/Colombo", 19800), ("Asia/Damascus", 10800), ("Asia/Dhaka", 21600), ("Asia/Dili", 32400),
  ("Asia/Dubai", 14400), ("Asia/Dushanbe", 18000), ("Asia/Famagusta", 7200), ("Asia/Gaza", 7200),
  ("Asia/Harbin", 28800), ("Asia/Hebron", 7200), ("Asia/Ho_Chi_Minh", 25200),
  ("Asia/Hong_Kong", 28800), ("Asia/Hovd", 25200), ("Asia/Irkutsk", 28800),
  ("Asia/Istanbul", 10800), ("Asia/Jakarta", 25200), ("Asia/Jayapura", 32400),
  ("Asia/Jerusalem", 7200), ("Asia/Kabul", 16200), ("Asia/Kamchatka", 43200),
  ("Asia/Karachi", 18000), ("Asia/Kashgar", 21600), ("Asia/Kathmandu", 20700),
  ("Asia/Khandyga", 32400), ("Asia/Kolkata", 19800), ("Asia/Krasnoyarsk", 25200),
  ("Asia/Kuala_Lumpur", 28800), ("Asia/Kuching", 28800), ("Asia/Kuwait", 10800),
  ("Asia/Macau", 28800), ("Asia/Magadan", 39600), ("Asia/Makassar", 28800), ("Asia/Manila", 28800),
  ("Asia/Muscat", 14400), ("Asia/Nicosia", 7200), ("Asia/Novokuznetsk", 25200),
  ("Asia/Novosibirsk", 25200), ("Asia/Omsk", 21600), ("Asia/Oral", 18000),
  ("Asia/Phnom_Penh", 25200), ("Asia/Pontianak", 25200), ("Asia/Pyongyang", 32400),
  ("Asia/Qatar", 10800), ("Asia/Qostanay", 18000), ("Asia/Qyzylorda", 18000),
  ("Asia/Riyadh", 10800), ("Asia/Sakhalin", 39600), ("Asia/Samarkand", 18000),
  ("Asia/Seoul", 32400), ("Asia/Shanghai", 28800), ("Asia/Singapore", 28800),
  ("Asia/Srednekolymsk", 39600), ("Asia/Taipei", 28800), ("Asia/Tashkent", 18000),
  ("Asia/Tbilisi", 14400), ("Asia/Tehran", 12600), ("Asia/Tel_Aviv", 7200), ("Asia/Thimphu", 21600),
  ("Asia/Tokyo", 32400), ("Asia/Tomsk", 25200), ("Asia/Ulaanbaatar", 28800), ("Asia/Urumqi", 21600),
  ("Asia/Ust-Nera", 36000), ("Asia/Vientiane", 25200), ("Asia/Vladivostok", 36000),
  ("Asia/Yakutsk", 32400), ("Asia/Yangon", 23400), ("Asia/Yekaterinburg", 18000),
  ("Asia/Yerevan", 14400), ("Atlantic/Jan_Mayen", 3600), ("Australia/Adelaide", 37800),
  ("Australia/Brisbane", 36000), ("Australia/Broken_Hill", 37800), ("Australia/Canberra", 39600),
  ("Australia/Currie", 39600), ("Australia/Darwin", 34200), ("Australia/Eucla", 31500),
  ("Australia/Hobart", 39600), ("Australia/Lindeman", 36000), ("Australia/Lord_Howe", 39600),
  ("Australia/Melbourne", 39600), ("Australia/Perth", 28800), ("Australia/Sydney", 39600),
  ("Australia/Yancowinna", 37800), ("CET", 3600), ("EET", 7200), ("Etc/GMT-1", 3600),
  ("Etc/GMT-10", 36000), ("Etc/GMT-11", 39600), ("Etc/GMT-12", 43200), ("Etc/GMT-13", 46800),
  ("Etc/GMT-14", 50400), ("Etc/GMT-2", 7200), ("Etc/GMT-3", 10800), ("Etc/GMT-4", 14400),
  ("Etc/GMT-5", 18000), ("Etc/GMT-6", 21600), ("Etc/GMT-7", 25200), ("Etc/GMT-8", 28800),
  ("Etc/GMT-9", 32400), ("Europe/Amsterdam", 3600), ("Europe/Andorra", 3600),
  ("Europe/Astrakhan", 14400), ("Europe/Athens", 7200), ("Europe/Belgrade", 3600),
  ("Europe/Berlin", 3600), ("Europe/Bratislava", 3600), ("Europe/Brussels", 3600),
  ("Europe/Bucharest", 7200), ("Europe/Budapest", 3600), ("Europe/Busingen", 3600),
  ("Europe/Chisinau", 7200), ("Europe/Copenhagen", 3600), ("Europe/Gibraltar", 3600),
  ("Europe/Helsinki", 7200), ("Europe/Istanbul", 10800), ("Europe/Kaliningrad", 7200),
  ("Europe/Kirov", 10800), ("Europe/Kyiv", 7200), ("Europe/Ljubljana", 3600),
  ("Europe/Luxembourg", 3600), ("Europe/Madrid", 3600), ("Europe/Malta", 3600),
  ("Europe/Mariehamn", 7200), ("Europe/Minsk", 10800), ("Europe/Monaco", 3600),
  ("Europe/Moscow", 10800), ("Europe/Nicosia", 7200), ("Europe/Oslo", 3600), ("Europe/Paris", 3600),
  ("Europe/Podgorica", 3600), ("Europe/Prague", 3600), ("Europe/Riga", 7200), ("Europe/Rome", 3600),
  ("Europe/Samara", 14400), ("Europe/San_Marino", 3600), ("Europe/Sarajevo", 3600),
  ("Europe/Saratov", 14400), ("Europe/Simferopol", 10800), ("Europe/Skopje", 3600),
  ("Europe/Sofia", 7200), ("Europe/Stockholm", 3600), ("Europe/Tallinn", 7200),
  ("Europe/Tirane", 3600), ("Europe/Tiraspol", 7200), ("Europe/Ulyanovsk", 14400),
  ("Europe/Vaduz", 3600), ("Europe/Vatican", 3600), ("Europe/Vienna", 3600),
  ("Europe/Vilnius", 7200), ("Europe/Volgograd", 10800), ("Europe/Warsaw", 3600),
  ("Europe/Zagreb", 3600), ("Europe/Zurich", 3600), ("Indian/Antananarivo", 10800),
  ("Indian/Chagos", 21600), ("Indian/Christmas", 25200), ("Indian/Cocos", 23400),
  ("Indian/Comoro", 10800), ("Indian/Kerguelen", 18000), ("Indian/Mahe", 14400),
  ("Indian/Maldives", 18000), ("Indian/Mauritius", 14400), ("Indian/Mayotte", 10800),
  ("Indian/Reunion", 14400), ("MET", 3600), ("Pacific/Apia", 46800), ("Pacific/Auckland", 46800),
  ("Pacific/Bougainville", 39600), ("Pacific/Chatham", 49500), ("Pacific/Chuuk", 36000),
  ("Pacific/Efate", 39600), ("Pacific/Fakaofo", 46800), ("Pacific/Fiji", 43200),
  ("Pacific/Funafuti", 43200), ("Pacific/Guadalcanal", 39600), ("Pacific/Guam", 36000),
  ("Pacific/Kanton", 46800), ("Pacific/Kiritimati", 50400), ("Pacific/Kosrae", 39600),
  ("Pacific/Kwajalein", 43200), ("Pacific/Majuro", 43200), ("Pacific/Nauru", 43200),
  ("Pacific/Norfolk", 43200), ("Pacific/Noumea", 39600), ("Pacific/Palau", 32400),
  ("Pacific/Pohnpei", 39600), ("Pacific/Port_Moresby", 36000), ("Pacific/Saipan", 36000),
  ("Pacific/Tarawa", 43200), ("Pacific/Tongatapu", 46800), ("Pacific/Wake", 43200),
  ("Pacific/Wallis", 43200), ("Pacific/Yap", 36000)]

/-- Whether a point in time, counted in microseconds since 1970, falls into the years 1 to 9999 on
the clocks of a zone. -/
def isInCalendar (micros : Int) (zone : String) : Bool :=
  let behind : Int := (Assoc.get? zone secondsBehind).getD 0
  let ahead : Int := (Assoc.get? zone secondsAhead).getD 0
  calendarStart + behind * 1000000 ≤ micros && micros < calendarEnd - ahead * 1000000

end Parley
